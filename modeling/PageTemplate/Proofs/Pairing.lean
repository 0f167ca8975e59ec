import PageTemplate.Proofs.Numbering

/-!
Nodes that differ in their expressions and in values that are left out of the place of what the template has.
`Node.Paired` relates the two, given which expressions stand for each other and which are left out. Paired nodes fill
the same slots, and if one can be compiled, so can the other, to nodes that are paired again.
-/

namespace PageTemplate

variable {ε δ : Type}
variable {E : ε → ε → Prop}

inductive Operand.Paired (E : ε → δ → Prop) : Operand ε → Operand δ → Prop where
  | literal (s : Bytes) : Paired E (.literal s) (.literal s)
  | expr {e : ε} {e' : δ} : E e e' → Paired E (.expr e) (.expr e')
  | interpolated (source : Bytes) {ps : List (Part ε)} {ps' : List (Part δ)} :
      List.Forall₂ (Part.Paired E) ps ps' → Paired E (.interpolated source ps) (.interpolated source ps')
  | isDefault {e : ε} {e' : δ} : E e e' → Paired E (.isDefault e) (.isDefault e')
  | not {o : Operand ε} {o' : Operand δ} : Paired E o o' → Paired E (.not o) (.not o')
  | missing : Paired E .missing .missing

inductive DynamicAttribute.Paired (E : ε → δ → Prop) (a : DynamicAttribute ε) : DynamicAttribute δ → Prop where
  | intro {value : Operand δ} : a.value.Paired E value → Paired E a { a with value }

mutual

/-- The nodes are the same but for their expressions and for values that only the first shows. -/
inductive Node.Paired (E : ε → δ → Prop) (C : ε → Prop) : Node ε → Node δ → Prop where
  | absent : Paired E C .absent .absent
  | sequence {ns : List (Node ε)} {ns' : List (Node δ)} :
      Node.AllPaired E C ns ns' → Paired E C (.sequence ns) (.sequence ns')
  | text (s : Bytes) : Paired E C (.text s) (.text s)
  | interpolation (source : Bytes) {ps : List (Part ε)} {ps' : List (Part δ)} :
      List.Forall₂ (Part.Paired E) ps ps' → Paired E C (.interpolation source ps) (.interpolation source ps')
  | element (name : Bytes) {start body stop : Node ε} {start' body' stop' : Node δ} :
      Paired E C start start' → Paired E C body body' → Paired E C stop stop' →
      Paired E C (.element name start body stop) (.element name start' body' stop')
  | startTag (lead name tail : Bytes) {ns : List (Node ε)} {ns' : List (Node δ)} :
      Node.AllPaired E C ns ns' → Paired E C (.startTag lead name ns tail) (.startTag lead name ns' tail)
  | attr {a : DynamicAttribute ε} {a' : DynamicAttribute δ} : a.Paired E a' → Paired E C (.attr a) (.attr a')
  | attributeMap {e : ε} {e' : δ} (exclude : List Bytes) :
      E e e' → Paired E C (.attributeMap e exclude) (.attributeMap e' exclude)
  | condition {test : Operand ε} {test' : Operand δ} {yes no : Node ε} {yes' no' : Node δ} :
      test.Paired E test' → Paired E C yes yes' → Paired E C no no' →
      Paired E C (.condition test yes no) (.condition test' yes' no')
  | loop (names : List Bytes) {e : ε} {e' : δ} {body : Node ε} {body' : Node δ} (whitespace : Bytes) :
      E e e' → Paired E C body body' → Paired E C (.loop names e body whitespace) (.loop names e' body' whitespace)
  | define {as : List (Assignment ε)} {as' : List (Assignment δ)} {body : Node ε} {body' : Node δ} :
      List.Forall₂ (Assignment.Paired E) as as' → Paired E C body body' →
      Paired E C (.define as body) (.define as' body')
  | cache {es : List ε} {es' : List δ} {body : Node ε} {body' : Node δ} :
      List.Forall₂ E es es' → Paired E C body body' → Paired E C (.cache es body) (.cache es' body')
  | content {e : ε} {e' : δ} (raw translated : Bool) :
      E e e' → Paired E C (.content e raw translated) (.content e' raw translated)
  | translate (msgid : Bytes) {body : Node ε} {body' : Node δ} :
      Paired E C body body' → Paired E C (.translate msgid body) (.translate msgid body')
  | name (name : Bytes) {body : Node ε} {body' : Node δ} :
      Paired E C body body' → Paired E C (.name name body) (.name name body')
  | domain (name : Bytes) {body : Node ε} {body' : Node δ} :
      Paired E C body body' → Paired E C (.domain name body) (.domain name body')
  | onError {body fallback : Node ε} {body' fallback' : Node δ} :
      Paired E C body body' → Paired E C fallback fallback' →
      Paired E C (.onError body fallback) (.onError body' fallback')
  | macroDef (name : Bytes) {body : Node ε} {body' : Node δ} :
      Paired E C body body' → Paired E C (.macroDef name body) (.macroDef name body')
  | useInternal (name : Bytes) {slots : List (Bytes × Node ε)} {slots' : List (Bytes × Node δ)} (extend : Bool) :
      Node.SlotsPaired E C slots slots' → Paired E C (.useInternal name slots extend) (.useInternal name slots' extend)
  | useExternal {e : ε} {e' : δ} {slots : List (Bytes × Node ε)} {slots' : List (Bytes × Node δ)} (extend : Bool) :
      E e e' → Node.SlotsPaired E C slots slots' →
      Paired E C (.useExternal e slots extend) (.useExternal e' slots' extend)
  | fillSlot (name : Bytes) {body : Node ε} {body' : Node δ} :
      Paired E C body body' → Paired E C (.fillSlot name body) (.fillSlot name body')
  | defineSlot (name : Bytes) {body : Node ε} {body' : Node δ} :
      Paired E C body body' → Paired E C (.defineSlot name body) (.defineSlot name body')
  | switch (id : Int) {e : ε} {e' : δ} {body : Node ε} {body' : Node δ} :
      E e e' → Paired E C body body' → Paired E C (.switch id e body) (.switch id e' body')
  | case (id : Int) {e : Option ε} {e' : Option δ} {body : Node ε} {body' : Node δ} :
      Option.Rel E e e' → Paired E C body body' → Paired E C (.case id e body) (.case id e' body')
  | omitted : Paired E C .omitted .omitted
  | module (filename : Bytes) {body : Node ε} {body' : Node δ} :
      Paired E C body body' → Paired E C (.module filename body) (.module filename body')
  /-- The value is left out. -/
  | kept {e : ε} {kept : Node ε} {kept' : Node δ} (raw translated : Bool) :
      C e → Paired E C kept kept' → Paired E C (.substitution e kept raw translated) kept'

/-- The nodes of the lists are paired one by one. -/
inductive Node.AllPaired (E : ε → δ → Prop) (C : ε → Prop) : List (Node ε) → List (Node δ) → Prop where
  | nil : AllPaired E C [] []
  | cons {n : Node ε} {n' : Node δ} {ns : List (Node ε)} {ns' : List (Node δ)} :
      Node.Paired E C n n' → AllPaired E C ns ns' → AllPaired E C (n :: ns) (n' :: ns')

inductive Node.SlotsPaired (E : ε → δ → Prop) (C : ε → Prop) :
    List (Bytes × Node ε) → List (Bytes × Node δ) → Prop where
  | nil : SlotsPaired E C [] []
  | cons {name : Bytes} {n : Node ε} {n' : Node δ} {ss : List (Bytes × Node ε)} {ss' : List (Bytes × Node δ)} :
      Node.Paired E C n n' → SlotsPaired E C ss ss' → SlotsPaired E C ((name, n) :: ss) ((name, n') :: ss')

end

namespace Node

variable {E : ε → δ → Prop} {C : ε → Prop}

theorem AllPaired.of_forall₂ {ns : List (Node ε)} {ns' : List (Node δ)} (h : List.Forall₂ (Paired E C) ns ns') :
    AllPaired E C ns ns' := by
  induction h with
  | nil => exact .nil
  | cons hn _ ih => exact .cons hn ih

theorem AllPaired.forall₂ {ns : List (Node ε)} {ns' : List (Node δ)} (h : AllPaired E C ns ns') :
    List.Forall₂ (Paired E C) ns ns' :=
  match h with
  | .nil => .nil
  | .cons hn hns => .cons hn hns.forall₂

theorem SlotsPaired.map_fst {ss : List (Bytes × Node ε)} {ss' : List (Bytes × Node δ)} (h : SlotsPaired E C ss ss') :
    ss'.map (·.1) = ss.map (·.1) :=
  match h with
  | .nil => rfl
  | .cons _ hs => congrArg (List.cons _) hs.map_fst

theorem SlotsPaired.append {ss₁ ss₂ : List (Bytes × Node ε)} {ss₁' ss₂' : List (Bytes × Node δ)}
    (h₁ : SlotsPaired E C ss₁ ss₁') (h₂ : SlotsPaired E C ss₂ ss₂') : SlotsPaired E C (ss₁ ++ ss₂) (ss₁' ++ ss₂') :=
  match h₁ with
  | .nil => h₂
  | .cons hn hs => .cons hn (hs.append h₂)

theorem SlotsPaired.lookup {ss : List (Bytes × Node ε)} {ss' : List (Bytes × Node δ)} (h : SlotsPaired E C ss ss')
    (name : Bytes) : Option.Rel (Paired E C) (ss.lookup name) (ss'.lookup name) :=
  match h with
  | .nil => .none
  | .cons hn hs => by
    rw [List.lookup_cons, List.lookup_cons]
    split
    · exact .some hn
    · exact hs.lookup name

theorem SlotsPaired.reverse {ss : List (Bytes × Node ε)} {ss' : List (Bytes × Node δ)} (h : SlotsPaired E C ss ss') :
    SlotsPaired E C ss.reverse ss'.reverse :=
  match h with
  | .nil => .nil
  | .cons hn hs => by
    rw [List.reverse_cons, List.reverse_cons]
    exact hs.reverse.append (.cons hn .nil)

mutual

theorem Paired.fills {n : Node ε} {n' : Node δ} : Paired E C n n' → SlotsPaired E C n.fills n'.fills
  | .absent | .text _ | .interpolation _ _ | .attr _ | .attributeMap _ _
  | .content _ _ _ | .useInternal _ _ _ | .useExternal _ _ _ | .omitted => .nil
  | .fillSlot _ h => .cons h .nil
  | .sequence hs | .startTag _ _ _ hs => hs.fills
  | .element _ hstart hbody hstop => (hstart.fills.append hbody.fills).append hstop.fills
  | .condition _ hyes hno => hyes.fills.append hno.fills
  | .onError hbody hfallback => hbody.fills.append hfallback.fills
  | .loop _ _ _ h | .define _ h | .cache _ h | .translate _ h | .name _ h
  | .domain _ h | .macroDef _ h | .defineSlot _ h | .switch _ _ h | .case _ _ h
  | .module _ h => h.fills
  | .kept _ _ _ h => by
    have hfills := h.fills.append (.nil (E := E) (C := C))
    rwa [List.append_nil n'.fills] at hfills

theorem AllPaired.fills {ns : List (Node ε)} {ns' : List (Node δ)} : AllPaired E C ns ns' →
    SlotsPaired E C (fillsOf ns) (fillsOf ns')
  | .nil => .nil
  | .cons h hs => h.fills.append hs.fills

end

end Node

theorem Part.Paired.refl {p : Part ε} (h : ∀ e ∈ p.exprs, E e e) : p.Paired E p := by
  cases p with
  | literal s => exact .literal s
  | expr e => exact .expr (h e (by simp [Part.exprs]))

theorem Part.Paired.refl_all {ps : List (Part ε)} (h : ∀ e ∈ ps.flatMap Part.exprs, E e e) :
    List.Forall₂ (Part.Paired E) ps ps :=
  List.forall₂_same.2 fun p hp => .refl fun e he => h e (List.mem_flatMap.2 ⟨p, hp, he⟩)

theorem Operand.Paired.refl {o : Operand ε} (h : ∀ e ∈ o.exprs, E e e) : o.Paired E o := by
  induction o with
  | literal s => exact .literal s
  | expr e => exact .expr (h e (by simp [Operand.exprs]))
  | interpolated source ps => exact .interpolated source (Part.Paired.refl_all h)
  | isDefault e => exact .isDefault (h e (by simp [Operand.exprs]))
  | not o ih => exact .not (ih h)
  | missing => exact .missing

namespace Node

/-- The expressions of the nodes stand for themselves. -/
def SelfPaired (E : ε → ε → Prop) (ns : List (Node ε)) : Prop := ∀ m ∈ ns, ∀ e ∈ m.reads, E e e

namespace SelfPaired

variable {E : ε → ε → Prop} {C : ε → Prop} {ns ns' : List (Node ε)}

theorem mono (h : SelfPaired E ns) (hsubset : ns' ⊆ ns) : SelfPaired E ns' := fun m hm => h m (hsubset hm)

theorem tail {n : Node ε} (h : SelfPaired E (n :: ns)) : SelfPaired E ns := h.mono (List.subset_cons_self _ _)

theorem head {n : Node ε} (h : SelfPaired E (n :: ns)) : ∀ e ∈ n.reads, E e e := h n List.mem_cons_self

mutual

theorem paired : ∀ {n : Node ε}, SelfPaired E n.all → Paired E C n n
  | .absent, _ => .absent
  | .text s, _ => .text s
  | .omitted, _ => .omitted
  | .sequence ns, h => .sequence (allPaired h.tail)
  | .startTag lead label ns tail, h => .startTag lead label tail (allPaired h.tail)
  | .interpolation source ps, h => .interpolation source (Part.Paired.refl_all h.head)
  | .element label start body stop, h => by
    have hbelow := h.tail
    refine .element label (paired ?_) (paired ?_) (paired ?_) <;> exact hbelow.mono fun m hm => by simp [hm]
  | .attr a, h => .attr (.intro (.refl h.head))
  | .attributeMap e exclude, h => .attributeMap exclude (h.head e (by simp [reads]))
  | .condition test yes no, h => by
    have hbelow := h.tail
    refine .condition (.refl h.head) (paired ?_) (paired ?_) <;> exact hbelow.mono fun m hm => by simp [hm]
  | .loop names e body whitespace, h => .loop names whitespace (h.head e (by simp [reads])) (paired h.tail)
  | .define as body, h =>
    .define (List.forall₂_same.2 fun a ha => .intro (h.head a.expr (List.mem_map.2 ⟨a, ha, rfl⟩))) (paired h.tail)
  | .cache es body, h => .cache (List.forall₂_same.2 h.head) (paired h.tail)
  | .content e raw translated, h => .content raw translated (h.head e (by simp [reads]))
  | .translate msgid body, h => .translate msgid (paired h.tail)
  | .name label body, h => .name label (paired h.tail)
  | .domain label body, h => .domain label (paired h.tail)
  | .onError body fallback, h => by
    have hbelow := h.tail
    refine .onError (paired ?_) (paired ?_) <;> exact hbelow.mono fun m hm => by simp [hm]
  | .macroDef label body, h => .macroDef label (paired h.tail)
  | .useInternal label slots extend, h => .useInternal label extend (slotsPaired h.tail)
  | .useExternal e slots extend, h => .useExternal extend (h.head e (by simp [reads])) (slotsPaired h.tail)
  | .fillSlot label body, h => .fillSlot label (paired h.tail)
  | .defineSlot label body, h => .defineSlot label (paired h.tail)
  | .switch id e body, h => .switch id (h.head e (by simp [reads])) (paired h.tail)
  | .case id none body, h => .case id .none (paired h.tail)
  | .case id (some e) body, h => .case id (.some (h.head e (by simp [reads]))) (paired h.tail)
  | .module filename body, h => .module filename (paired h.tail)

theorem allPaired : ∀ {ns : List (Node ε)}, SelfPaired E (allOf ns) → AllPaired E C ns ns
  | [], _ => .nil
  | _ :: _, h =>
    .cons (paired (h.mono (List.subset_append_left _ _))) (allPaired (h.mono (List.subset_append_right _ _)))

theorem slotsPaired : ∀ {ss : List (Bytes × Node ε)}, SelfPaired E (allOfSlots ss) → SlotsPaired E C ss ss
  | [], _ => .nil
  | (_, _) :: _, h =>
    .cons (paired (h.tail.mono (List.subset_append_left _ _)))
      (slotsPaired (h.tail.mono (List.subset_append_right _ _)))

end

end SelfPaired

end Node

/-! ### Compiling -/

section Traverse

variable {ε' δ' : Type} {E : ε → δ → Prop} {C : ε → Prop} {E' : ε' → δ' → Prop} {C' : ε' → Prop}
  {f : ε → Except Failure ε'} {g : δ → Except Failure δ'}

theorem exists_of_traverse_substitution {e : ε} {kept : Node ε} {raw translated : Bool} {n : Node ε'}
    (h : (Node.substitution e kept raw translated).traverse f = .ok n) :
    ∃ a kept', f e = .ok a ∧ kept.traverse f = .ok kept' ∧ n = .substitution a kept' raw translated := by
  simp only [Node.substitution, Node.traverse, Operand.traverse] at h
  cases he : f e with
  | error failure => simp [he, List.mapM_cons, bind, Except.bind] at h
  | ok a =>
    cases hkept : kept.traverse f with
    | error failure => simp [he, hkept, List.mapM_cons, bind, Except.bind, pure, Except.pure] at h
    | ok kept' =>
      simp only [he, hkept, List.mapM_cons, List.mapM_nil, bind, Except.bind, pure, Except.pure] at h
      cases h
      exact ⟨a, kept', rfl, rfl, rfl⟩

variable (hE : ∀ e e', E e e' → Answers E' (f e) (g e'))
include hE

theorem Part.Paired.traverse {p : Part ε} {p' : Part δ} (h : p.Paired E p') :
    Answers (Part.Paired E') (p.traverse f) (p'.traverse g) := by
  cases h with
  | literal s => exact .ok (.literal s)
  | expr he => exact .map (hE _ _ he) .expr

theorem Operand.Paired.traverse {o : Operand ε} {o' : Operand δ} (h : o.Paired E o') :
    Answers (Operand.Paired E') (o.traverse f) (o'.traverse g) := by
  induction h with
  | literal s => exact .ok (.literal s)
  | expr he => exact .map (hE _ _ he) .expr
  | interpolated source hps => exact .map (.mapM (fun _ _ hp => hp.traverse hE) hps) (.interpolated source)
  | isDefault he => exact .map (hE _ _ he) .isDefault
  | not _ ih => exact .map ih .not
  | missing => exact .error _ _

omit hE in
mutual

theorem Node.Paired.traverse (hE : ∀ e e', E e e' → Answers E' (f e) (g e'))
    (hC : ∀ e a, C e → f e = .ok a → C' a) {n : Node ε} {n' : Node δ} :
    n.Paired E C n' → Answers (Node.Paired E' C') (n.traverse f) (n'.traverse g)
  | .absent => .ok .absent
  | .text s => .ok (.text s)
  | .omitted => .ok .omitted
  | .sequence hs => .map (hs.traverse hE hC) .sequence
  | .startTag lead label tail hs => .map (hs.traverse hE hC) (.startTag lead label tail)
  | .interpolation source hps => .map (.mapM (fun _ _ hp => hp.traverse hE) hps) (.interpolation source)
  | .element label hstart hbody hstop =>
    .bind (hstart.traverse hE hC) fun _ _ hstart' => .bind (hbody.traverse hE hC) fun _ _ hbody' =>
      .map (hstop.traverse hE hC) (.element label hstart' hbody')
  | .attr (.intro hvalue) => .bind (hvalue.traverse hE) fun _ _ hvalue' => .ok (.attr (.intro hvalue'))
  | .attributeMap exclude he => .map (hE _ _ he) (.attributeMap exclude)
  | .condition htest hyes hno =>
    .bind (htest.traverse hE) fun _ _ htest' => .bind (hyes.traverse hE hC) fun _ _ hyes' =>
      .map (hno.traverse hE hC) (.condition htest' hyes')
  | .loop names whitespace he hbody => .bind (hE _ _ he) fun _ _ ha =>
      .map (hbody.traverse hE hC) (.loop names whitespace ha)
  | .define has hbody => by
    have hassignment : ∀ (a : Assignment ε) (a' : Assignment δ), a.Paired E a' →
        Answers (Assignment.Paired E') (do return { a with expr := ← f a.expr })
          (do return { a' with expr := ← g a'.expr }) := by
      rintro a _ ⟨he⟩
      exact .map (hE _ _ he) fun ha => .intro ha
    exact .bind (.mapM hassignment has) fun _ _ has' => .map (hbody.traverse hE hC) (.define has')
  | .cache hes hbody => .bind (.mapM hE hes) fun _ _ hes' => .map (hbody.traverse hE hC) (.cache hes')
  | .content raw translated he => .map (hE _ _ he) (.content raw translated)
  | .translate msgid hbody => .map (hbody.traverse hE hC) (.translate msgid)
  | .name label hbody => .map (hbody.traverse hE hC) (.name label)
  | .domain label hbody => .map (hbody.traverse hE hC) (.domain label)
  | .onError hbody hfallback => .bind (hbody.traverse hE hC) fun _ _ hbody' =>
      .map (hfallback.traverse hE hC) (.onError hbody')
  | .macroDef label hbody => .map (hbody.traverse hE hC) (.macroDef label)
  | .useInternal label extend hs => .map (hs.traverse hE hC) (.useInternal label extend)
  | .useExternal extend he hs => .bind (hE _ _ he) fun _ _ ha => .map (hs.traverse hE hC) (.useExternal extend ha)
  | .fillSlot label hbody => .map (hbody.traverse hE hC) (.fillSlot label)
  | .defineSlot label hbody => .map (hbody.traverse hE hC) (.defineSlot label)
  | .switch id he hbody => .bind (hE _ _ he) fun _ _ ha => .map (hbody.traverse hE hC) (.switch id ha)
  | .case id .none hbody => .bind (.ok .none) fun _ _ hvalue => .map (hbody.traverse hE hC) (.case id hvalue)
  | .case id (.some he) hbody =>
    .bind (.map (hE _ _ he) .some) fun _ _ hvalue => .map (hbody.traverse hE hC) (.case id hvalue)
  | .module filename hbody => .map (hbody.traverse hE hC) (.module filename)
  | .kept raw translated he hkept => by
    intro n hn
    obtain ⟨a, kept, ha, htraverse, rfl⟩ := exists_of_traverse_substitution hn
    obtain ⟨n', hn', hpaired⟩ := hkept.traverse hE hC kept htraverse
    exact ⟨n', hn', .kept raw translated (hC _ a he ha) hpaired⟩

theorem Node.AllPaired.traverse (hE : ∀ e e', E e e' → Answers E' (f e) (g e'))
    (hC : ∀ e a, C e → f e = .ok a → C' a) {ns : List (Node ε)} {ns' : List (Node δ)} : Node.AllPaired E C ns ns' →
    Answers (Node.AllPaired E' C') (Node.traverseAll f ns) (Node.traverseAll g ns')
  | .nil => .ok .nil
  | .cons h hs => .bind (h.traverse hE hC) fun _ _ h' => .map (hs.traverse hE hC) (.cons h')

theorem Node.SlotsPaired.traverse (hE : ∀ e e', E e e' → Answers E' (f e) (g e'))
    (hC : ∀ e a, C e → f e = .ok a → C' a) {ss : List (Bytes × Node ε)} {ss' : List (Bytes × Node δ)} :
    Node.SlotsPaired E C ss ss' → Answers (Node.SlotsPaired E' C') (Node.traverseSlots f ss) (Node.traverseSlots g ss')
  | .nil => .ok .nil
  | .cons h hs => .bind (h.traverse hE hC) fun _ _ h' => .map (hs.traverse hE hC) (.cons h')

end

end Traverse

end PageTemplate
