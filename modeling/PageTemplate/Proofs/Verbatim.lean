import PageTemplate.Proofs.Markup.Tree
import PageTemplate.Proofs.Render.Run
import PageTemplate.Render

/-!
Templates without directives. Nothing in such a template is worked out while it renders: its tree is built into nodes
that write a fixed text. The main statement is that such a template renders as its own source.
-/

namespace PageTemplate

open Markup (Token RawAttribute Attribute ElementHead)

variable {s : Bytes} {t : Token}

/-- The node writes the text, whatever the state. -/
inductive Node.Literal {ε : Type} : Node ε → Bytes → Prop where
  | absent : Literal .absent []
  | text (s : Bytes) : Literal (.text s) s
  | nil : Literal (.sequence []) []
  | cons {n : Node ε} {ns : List (Node ε)} {s t : Bytes} (head : Literal n s)
      (tail : Literal (.sequence ns) t) : Literal (.sequence (n :: ns)) (s ++ t)
  | element {start body stop : Node ε} {s t u : Bytes} (name : Bytes) (hstart : Literal start s)
      (hbody : Literal body t) (hstop : Literal stop u) :
      Literal (.element name start body stop) (s ++ t ++ u)
  | startTag {attributes : List (Node ε)} {s : Bytes} (lead name tail : Bytes)
      (hattributes : Literal (.sequence attributes) s) :
      Literal (.startTag lead name attributes tail) (lead ++ name ++ s ++ tail)

theorem Node.exists_of_traverse_sequence {ε δ : Type} {f : ε → Except Failure δ}
    {ns : List (Node ε)} {m : Node δ} (h : (Node.sequence ns).traverse f = .ok m) :
    ∃ ns', traverseAll f ns = .ok ns' ∧ m = .sequence ns' := by
  cases hns : traverseAll f ns with
  | error e => simp [Node.traverse, hns, bind, Except.bind] at h
  | ok ns' =>
    simp only [Node.traverse, hns, bind, Except.bind, pure, Except.pure, Except.ok.injEq] at h
    exact ⟨ns', rfl, h.symm⟩

theorem Node.Literal.traverse {ε δ : Type} (f : ε → Except Failure δ) {n : Node ε}
    (h : Literal n s) : ∃ n', n.traverse f = .ok n' ∧ Literal n' s := by
  induction h with
  | absent => exact ⟨_, rfl, .absent⟩
  | text s => exact ⟨_, rfl, .text s⟩
  | nil => exact ⟨_, rfl, .nil⟩
  | @cons n ns s t _ _ ihhead ihtail =>
    obtain ⟨n', hn, hhead⟩ := ihhead
    -- The rest of a sequence is a sequence too, and so is what it compiles to.
    obtain ⟨m, hm, htail⟩ := ihtail
    obtain ⟨ns', hns, rfl⟩ := exists_of_traverse_sequence hm
    refine ⟨.sequence (n' :: ns'), ?_, .cons hhead htail⟩
    simp [Node.traverse, traverseAll, hn, hns, bind, Except.bind, pure, Except.pure]
  | element name _ _ _ ihstart ihbody ihstop =>
    obtain ⟨start', hstart, hs⟩ := ihstart
    obtain ⟨body', hbody, hb⟩ := ihbody
    obtain ⟨stop', hstop, hp⟩ := ihstop
    refine ⟨.element name start' body' stop', ?_, .element name hs hb hp⟩
    simp [Node.traverse, hstart, hbody, hstop, bind, Except.bind, pure, Except.pure]
  | @startTag attributes s lead name tail _ ih =>
    obtain ⟨m, hm, hattributes⟩ := ih
    obtain ⟨attributes', has, rfl⟩ := exists_of_traverse_sequence hm
    refine ⟨.startTag lead name attributes' tail, ?_, .startTag lead name tail hattributes⟩
    simp [Node.traverse, has, bind, Except.bind, pure, Except.pure]

namespace Render

@[simp] theorem run_write (s : Bytes) (st : State) :
    (write s).run st = some (.ok (), { st with out := st.out.append s }) := rfl

theorem run_node_of_literal (call : Continuation) (frame : Frame) {n : Node Compiled}
    (h : n.Literal s) (st : State) : ∃ st', (node call frame n).run st = some (.ok (), st') ∧
      st'.out.text = st.out.text ++ s := by
  induction h generalizing st with
  | absent => exact ⟨st, rfl, by simp⟩
  | text s => exact ⟨_, run_write s st, by simp⟩
  | nil => exact ⟨st, rfl, by simp⟩
  | cons _ _ ihhead ihtail =>
    obtain ⟨st₁, hhead, hout₁⟩ := ihhead st
    obtain ⟨st₂, htail, hout₂⟩ := ihtail st₁
    refine ⟨st₂, ?_, by rw [hout₂, hout₁, List.append_assoc]⟩
    simpa [node, nodeList, Run.run_bind, hhead] using htail
  | element name _ _ _ ihstart ihbody ihstop =>
    obtain ⟨st₁, hstart, hout₁⟩ := ihstart st
    obtain ⟨st₂, hbody, hout₂⟩ := ihbody st₁
    obtain ⟨st₃, hstop, hout₃⟩ := ihstop st₂
    refine ⟨st₃, ?_, by simp only [hout₃, hout₂, hout₁, List.append_assoc]⟩
    simp [node, Run.run_bind, hstart, hbody, hstop]
  | startTag lead name tail _ ih =>
    obtain ⟨st₁, hattributes, hout₁⟩ := ih { st with out := st.out.append (lead ++ name) }
    refine ⟨{ st₁ with out := st₁.out.append tail }, ?_, by simp [hout₁]⟩
    simp only [node] at hattributes
    simp [node, Run.run_bind, hattributes]

theorem run_renderBody_of_literal (depth program bound : Nat) {body : Node Compiled}
    (h : body.Literal s) (slots : Fills) (st : State) :
    ∃ st', (renderBody (toDepth (depth + 1)) program bound body slots).run st =
        some (.ok (), st') ∧ st'.out.text = st.out.text ++ s := by
  simp only [renderBody, Run.run_bind, Run.run_get, Run.run_set, Run.run_restoring, toDepth,
    Option.bind_some]
  obtain ⟨st₁, hbody, hout⟩ := run_node_of_literal (toDepth depth) _ h _
  rw [hbody]
  exact ⟨_, rfl, hout⟩

theorem run_renderEntry_of_literal (depth program bound : Nat) (builtins : Assoc Value)
    (st : State) (h : (st.world.program program).main.Literal s) :
    ∃ st', (renderEntry (toDepth (depth + 1)) program bound [] builtins).run st =
        some (.ok (), st') ∧ st'.out.text = st.out.text ++ s := by
  simp only [renderEntry, bindDefaults, Run.run_bind, Run.run_modify, Run.run_get, Run.run_set,
    Option.bind_some, List.isEmpty_nil, if_true]
  exact run_renderBody_of_literal depth program bound h [] _

end Render

/-! ### Building trees without directives -/

namespace Markup

/-- Neither a directive nor the declaration of a directive namespace. -/
def Attribute.IsPlain (a : Attribute) : Prop :=
  Namespace.isDirective a.key.space = false ∧
    (a.key.space = Namespace.xmlns → Namespace.isDirective a.raw.value.value = false)

instance (a : Attribute) : Decidable a.IsPlain := inferInstanceAs (Decidable (_ ∧ _))

/-- An element that is kept as it is written. -/
structure ElementHead.IsPlain (head : ElementHead) : Prop where
  space : Namespace.isDirective head.key.space = false
  attributes : ∀ a ∈ head.attributes, a.IsPlain
  written : head.attributes.map (·.raw) = head.start.attributes
  values : ∀ a ∈ head.start.attributes, Byte.dollar ∉ a.value.value

/-- A text that is kept as it is written. -/
structure Token.IsPlain (t : Token) : Prop where
  dollar : Byte.dollar ∉ t.value
  comment : t.kind = .comment → ¬ utf8 "<!--!" <+: t.value

end Markup

namespace Directives

@[simp] theorem has_nil (d : Directive) : Directives.has [] d = false := rfl

@[simp] theorem clause?_nil (d : Directive) : Directives.clause? [] d = none := rfl

@[simp] theorem checkExclusions_nil (inNamespace : Bool) :
    Directives.checkExclusions [] inNamespace = .ok () := rfl

theorem classify_of_plain {as : List Attribute} (h : ∀ a ∈ as, a.IsPlain) :
    classify as [] = .ok ([], as.map (·.raw)) := by
  induction as with
  | nil => rfl
  | cons a as ih =>
    obtain ⟨⟨hspace, hxmlns⟩, has⟩ := List.forall_mem_cons.1 h
    have hkept : ¬ (a.key.space = Markup.Namespace.xmlns ∧
        Markup.Namespace.isDirective a.raw.value.value = true) := by
      rintro ⟨hx, hv⟩
      simp [hxmlns hx] at hv
    simp [classify, hspace, hkept, ih has, bind, Except.bind, pure, Except.pure]

end Directives

namespace Builder

variable {r : Expression.Registry}
variable {head : ElementHead}

theorem characterData_of_plain (h : Byte.dollar ∉ t.value) : characterData r t = pure (.text t.value) := by
  simp [characterData, h]

theorem textNode_of_plain (h : t.IsPlain) : textNode r t = pure (.text t.value) := by
  unfold textNode
  split
  · next hkind => simp [h.comment hkind, characterData_of_plain h.dollar]
  · exact characterData_of_plain h.dollar
  · rfl

theorem writtenAttribute_of_plain {a : RawAttribute} (h : Byte.dollar ∉ a.value.value) :
    writtenAttribute r a = pure (.text a.text) := by
  simp [writtenAttribute, h]

theorem attributes_of_plain {as : List RawAttribute} (h : ∀ a ∈ as, Byte.dollar ∉ a.value.value) :
    attributes r [] as = pure (as.map fun a => .text a.text) := by
  have hslots : as.mapM (fun a => AttributeSlot.mk a.name.value (some a) <$> writtenAttribute r a) =
      (pure (as.map fun a => ⟨a.name.value, some a, .text a.text⟩) : Build _) := by
    induction as with
    | nil => rfl
    | cons a as ih =>
      obtain ⟨ha, has⟩ := List.forall_mem_cons.1 h
      simp [List.mapM_cons, writtenAttribute_of_plain ha, ih has]
  simp [attributes, dynamicSlots, translatedSlots, hslots, Function.comp_def]

@[simp] theorem wrap_nil (head : ElementHead) (stop : Option Markup.Tag) (written : List RawAttribute)
    (whitespace : Bytes) (caseSwitch switchId : Nat) (n : Node Expr) :
    wrap r head stop [] written whitespace caseSwitch switchId n = pure n := by
  simp [wrap, controlled, enclosed, wrapping]

theorem element_of_plain (h : head.IsPlain) (stop : Option Markup.Tag) (children : Node Expr) :
    element r head stop [] head.start.attributes children =
      let tags := tagsWith head stop (head.start.attributes.map fun a => .text a.text) false
      pure (.element head.name tags.1 children tags.2) := by
  simp only [element, enclose, replaced, content, message, tagged, tags, Directives.has_nil, Directives.clause?_nil,
    h.space, Bool.false_eq_true, if_false, attributes_of_plain h.values, pure_bind]

theorem node_of_plain (s : Surrounding) (whitespace : Bytes)
    (h : head.IsPlain) (children : List Markup.Node) (stop : Option Markup.Tag) :
    node s whitespace (.element head children stop) = do
      let body ← nodes s [] children
      let tags := tagsWith head stop (head.start.attributes.map fun a => .text a.text) false
      return (Node.element head.name tags.1 (.sequence body) tags.2, ([] : Bytes)) := by
  have hlift : ∀ {α : Type} (a : α),
      (liftM (Except.ok a : Except Failure α) : Build α) = pure a := fun _ => rfl
  have hcase : caseSwitch s [] = pure 0 := rfl
  have hswitch : openSwitch [] = (·.nextSwitch) <$> get := rfl
  have hinside : ∀ switchId, inside s [] switchId = s := fun _ => by simp [inside, call?]
  have hskip : (modify fun st => st : Build Unit) = pure () := rfl
  simp only [node, Directives.classify_of_plain h.attributes, h.written, hlift, pure_bind,
    Directives.checkExclusions_nil, hcase, hswitch, hinside, checkFill, notePart, openMessage,
    closeMessage, elementOrCall, call?, hskip, Directives.has_nil, Directives.clause?_nil,
    Bool.false_eq_true, if_false, element_of_plain h, wrap_nil]
  rfl

theorem literal_tagsWith (head : ElementHead) (stop : Option Markup.Tag) :
    let tags := tagsWith head stop (head.start.attributes.map fun a => .text a.text) false
    tags.1.Literal head.start.text ∧
      tags.2.Literal (match stop with | some tag => tag.text | none => []) := by
  have hattributes : ∀ as : List RawAttribute,
      (Node.sequence (as.map fun a => (.text a.text : Node Expr))).Literal
        (as.flatMap RawAttribute.text) := by
    intro as
    induction as with
    | nil => exact .nil
    | cons a as ih => exact .cons (.text a.text) ih
  have hstart := Node.Literal.startTag head.start.opening head.name head.start.ending
    (hattributes head.start.attributes)
  cases stop with
  | none =>
    simp only [tagsWith, Bool.and_false, Bool.false_eq_true, if_false]
    exact ⟨hstart, .absent⟩
  | some tag => exact ⟨hstart, .text tag.text⟩

mutual

theorem exists_node_of_plain (s : Surrounding) (whitespace : Bytes) :
    ∀ n : Markup.Node, (∀ t ∈ n.texts, t.IsPlain) → (∀ head ∈ n.heads, head.IsPlain) →
      ∃ n' after, node s whitespace n = pure (n', after) ∧ n'.Literal n.source
  | .text t, htexts, _ => by
    have ht : t.IsPlain := htexts t (by simp [Markup.Node.texts])
    exact ⟨.text t.value, indentation t, by simp [node, textNode_of_plain ht], .text t.value⟩
  | .element head children stop, htexts, hheads => by
    have hhead : head.IsPlain := hheads head (by simp [Markup.Node.heads])
    -- Without directives no switch and no call is opened, so the children stand where the element does.
    obtain ⟨body, hbody, hliteral⟩ := exists_nodes_of_plain s [] children htexts
      fun h hmem => hheads h (List.mem_cons_of_mem _ hmem)
    obtain ⟨hstart, hstop⟩ := literal_tagsWith head stop
    refine ⟨_, [], ?_, .element head.name hstart hliteral hstop⟩
    simp [node_of_plain s whitespace hhead, hbody]

theorem exists_nodes_of_plain (s : Surrounding) (whitespace : Bytes) :
    ∀ ns : List Markup.Node, (∀ t ∈ Markup.textsOf ns, t.IsPlain) →
      (∀ head ∈ Markup.elementHeads ns, head.IsPlain) →
      ∃ body, nodes s whitespace ns = pure body ∧
        (Node.sequence body).Literal (Markup.serialize ns)
  | [], _, _ => ⟨[], rfl, .nil⟩
  | n :: ns, htexts, hheads => by
    simp only [Markup.textsOf, Markup.elementHeads, List.forall_mem_append] at htexts hheads
    obtain ⟨n', after, hn, hhead⟩ := exists_node_of_plain s whitespace n htexts.1 hheads.1
    obtain ⟨body, hns, htail⟩ := exists_nodes_of_plain s after ns htexts.2 hheads.2
    exact ⟨n' :: body, by simp [nodes, hn, hns], .cons hhead htail⟩

end

end Builder

/-- Nothing in the source asks for anything to be worked out while rendering. -/
structure DirectiveFree (source filename : Bytes) (tree : List Markup.Node) : Prop where
  dollar : Byte.dollar ∉ source
  comments : ∀ t ∈ Markup.tokenize source filename,
    t.kind = .comment → ¬ utf8 "<!--!" <+: t.value
  elements : ∀ head ∈ Markup.elementHeads tree,
    Markup.Namespace.isDirective head.key.space = false
  attributes : ∀ head ∈ Markup.elementHeads tree, ∀ a ∈ head.attributes, a.IsPlain

namespace DirectiveFree

variable {source filename : Bytes} {tree : List Markup.Node}

theorem dollar_of_mem_tokenize (h : DirectiveFree source filename tree)
    (ht : t ∈ Markup.tokenize source filename) : Byte.dollar ∉ t.value := by
  intro hdollar
  have hmem : Byte.dollar ∈ (Markup.tokenize source filename).flatMap (·.value) :=
    List.mem_flatMap.2 ⟨t, ht, hdollar⟩
  rw [Markup.flatMap_value_tokenize] at hmem
  exact h.dollar hmem

theorem texts (h : DirectiveFree source filename tree)
    (hparse : Markup.parse source filename = .ok tree) : ∀ t ∈ Markup.textsOf tree, t.IsPlain := by
  intro t ht
  have hmem := Markup.mem_of_mem_textsOf hparse ht
  exact ⟨h.dollar_of_mem_tokenize hmem, h.comments t hmem⟩

theorem heads (h : DirectiveFree source filename tree)
    (hparse : Markup.parse source filename = .ok tree) :
    ∀ head ∈ Markup.elementHeads tree, head.IsPlain := by
  intro head hhead
  obtain ⟨tok, hmem, _, tag, bindings, htag, hofTag⟩ := Markup.ofTag_of_mem_elementHeads hparse hhead
  refine ⟨h.elements head hhead, h.attributes head hhead, ?_, ?_⟩
  · simp [hofTag, Markup.ElementHead.ofTag, Function.comp_def]
  · -- What an attribute holds is part of the token that its tag was read from.
    intro a ha hdollar
    have hstart : head.start = tag := by rw [hofTag]; rfl
    apply h.dollar_of_mem_tokenize hmem
    rw [← Markup.Tag.text_of_mem_tokenize hmem htag, ← hstart]
    have hattribute : Byte.dollar ∈ head.start.attributes.flatMap RawAttribute.text :=
      List.mem_flatMap.2 ⟨a, ha, by simp [RawAttribute.text, hdollar]⟩
    simp [Markup.Tag.text, hattribute]

end DirectiveFree

end PageTemplate
