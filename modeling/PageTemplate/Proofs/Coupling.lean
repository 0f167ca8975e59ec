import PageTemplate.Proofs.Markup.Tree
import PageTemplate.Proofs.Places
import PageTemplate.Proofs.Preparation

/-!
Building, followed once for all purposes. Two templates that stand `Alongside` each other are built in ways that are
related by what goes together in their results. `Coupling`, `Enclosing` and `Assembling` say what such relations need
so that they can be followed through the tags of an element, through its directives and through a whole tree. A
property of what is built is followed the same way, as a relation that looks at one side only.
-/

namespace PageTemplate

variable {ε δ : Type}

/-- The parts are the same but for their expressions. -/
inductive Part.Paired (E : ε → δ → Prop) : Part ε → Part δ → Prop where
  | literal (s : Bytes) : Paired E (.literal s) (.literal s)
  | expr {e : ε} {e' : δ} : E e e' → Paired E (.expr e) (.expr e')

/-- The assignments are the same but for their expressions. -/
inductive Assignment.Paired (E : ε → δ → Prop) (a : Assignment ε) : Assignment δ → Prop where
  | intro {expr : δ} : E a.expr expr → Paired E a { a with expr }

namespace Node

/-- A value in the place of a node, which is kept if the value is the default marker. -/
def substitution (e : ε) (kept : Node ε) (raw translate : Bool) : Node ε :=
  .cache [e] (.condition (.isDefault e) kept (.content e raw translate))

/-- A tag that is left out if a value is true. -/
def unlessOmitted (e : ε) (n : Node ε) : Node ε := if n.isPresent then .condition (.not (.expr e)) n .absent else .absent

/-- An element whose tags are left out if a value is true. -/
def omission (e : ε) (name : Bytes) (start body stop : Node ε) : Node ε :=
  .cache [e] (.element name (unlessOmitted e start) body (unlessOmitted e stop))

end Node

namespace Clause

open Markup (Token)

variable {t : Token}
variable {ds : List Definition} {d : Definition}

theorem not_mem_reservedNames_of_checkNames {names : List Bytes} (h : checkNames t names = .ok ()) :
    ∀ name ∈ names, name ∉ reservedNames := by
  unfold checkNames at h
  split at h
  · cases h
  · next hnone => simpa using hnone

theorem not_mem_reservedNames_of_iteration {p : List Bytes × Token} (h : iteration t = .ok p) :
    ∀ name ∈ p.1, name ∉ reservedNames := by
  have hyields : Yields (fun _ => True) (fun p => ∀ name ∈ p.1, name ∉ reservedNames) (iteration t) := by
    unfold iteration
    dsimp only
    split
    · exact .error trivial
    · refine .known_bind (Q := fun _ => checkNames _ _ = .ok ()) ⟨fun _ _ h => h, fun _ _ => trivial⟩ fun _ hnames => ?_
      exact .ok (not_mem_reservedNames_of_checkNames hnames)
  exact hyields.1 p h

/-- The definition is what is read off a part of a list. -/
def IsReadOff (part : Token) (d : Definition) : Prop :=
  ∃ i, readDefinition? part.value = some (d.names, i, d.isGlobal) ∧ d.expr = part.drop i ∧
    checkNames part d.names = .ok ()

theorem exists_of_mem_definitions (h : definitions t = .ok ds) (hd : d ∈ ds) :
    ∃ part ∈ split t, IsReadOff part d := by
  have hyields : Yields (fun _ => True) (List.Forall₂ IsReadOff (split t)) (definitions t) := by
    unfold definitions
    refine .bind (.mapM_forall₂ (S := IsReadOff) fun part => ?_) fun ds hds => ?_
    · split
      · exact .error trivial
      · next names i isGlobal hread =>
        refine .known_bind (Q := fun _ => checkNames part names = .ok ()) ⟨fun _ _ h => h, fun _ _ => trivial⟩ ?_
        exact fun _ hnames => .ok ⟨i, hread, rfl, hnames⟩
    · split
      · exact .bind (Q := fun _ => True) (.error trivial) fun _ _ => .ok hds
      · exact .ok hds
  exact exists_of_forall₂ (hyields.1 ds h) hd

theorem not_mem_reservedNames_of_definitions (h : definitions t = .ok ds)
    (hd : d ∈ ds) : ∀ name ∈ d.names, name ∉ reservedNames := by
  obtain ⟨_, _, _, _, _, hnames⟩ := exists_of_mem_definitions h hd
  exact not_mem_reservedNames_of_checkNames hnames

end Clause

namespace Builder

open Markup (Token RawAttribute ElementHead)
open Expression (Registry)

/-! ### Where expressions are read -/

/-- The token of an expression that a directive consists of, but for a word or names in front of it. -/
inductive Whole (t : Token) : Token → Prop where
  | trimmed : Whole t t.trim
  | substitution : Whole t (Clause.substitution t).1
  | iteration {names : List Bytes} {source : Token} : Clause.iteration t = .ok (names, source) → Whole t source

/-- The token of an expression in a list of clauses. -/
inductive Listed (t : Token) : Token → Prop where
  | definition {ds : List Clause.Definition} {d : Clause.Definition} :
    Clause.definitions t = .ok ds → d ∈ ds → Listed t d.expr
  | entry {entries : List Clause.AttributeEntry} {entry : Clause.AttributeEntry} :
    Clause.attributes t = .ok entries → entry ∈ entries → Listed t entry.expr

/-- The token of an expression in an interpolated text. -/
inductive Interpolated (r : Registry) (t : Token) : Token → Prop where
  | fragment {fs : List Expression.Fragment} {f : Expression.Fragment} : r.fragments t.value = .ok fs → f ∈ fs →
    f.isExpression = true → Interpolated r t (fragmentToken t f)

/-- How the tokens of the expressions of a node are cut from the token that the node is read off. -/
def Cuts (r : Registry) (t : Token) : Node Expr → Token → Prop
  | .interpolation _ _ => Interpolated r t
  | .attr a =>
    match a.value with
    | .interpolated _ _ => Interpolated r t
    | _ => Listed t
  | .define _ _ | .attributeMap _ _ => Listed t
  | _ => Whole t

/-! ### Attributes -/

/-- Which expressions go together that were drawn between two numbers and have their tokens from some place. -/
abbrev Exprs := Nat → Nat → (Token → Token → Prop) → Expr → Expr → Prop

/-- The values of attributes are the same but for their expressions. -/
inductive ValueCoupled (r : Registry) (E : Exprs) (n : Nat) : Operand Expr → Operand Expr → Prop where
  | literal (s : Bytes) : ValueCoupled r E n (.literal s) (.literal s)
  | expr {e e' : Expr} : E 0 n Listed e e' → ValueCoupled r E n (.expr e) (.expr e')
  | interpolated (source : Bytes) {ps ps' : List (Part Expr)} : List.Forall₂ (Part.Paired (E 0 n (Interpolated r))) ps ps' →
    ValueCoupled r E n (.interpolated source ps) (.interpolated source ps')

/-- What is written in a start tag is the same but for the expressions. -/
inductive AttributeCoupled (r : Registry) (E : Exprs) (n : Nat) : Node Expr → Node Expr → Prop where
  | text (s : Bytes) : AttributeCoupled r E n (.text s) (.text s)
  | attr {a : DynamicAttribute Expr} {value : Operand Expr} : ValueCoupled r E n a.value value →
    AttributeCoupled r E n (.attr a) (.attr { a with value })
  | attributeMap {e e' : Expr} (exclude : List Bytes) : E 0 n Listed e e' →
    AttributeCoupled r E n (.attributeMap e exclude) (.attributeMap e' exclude)

/-- The attributes that are being put together are the same but for the expressions. -/
inductive AttributeSlot.Coupled (r : Registry) (S : Token → Token → Prop) (E : Exprs) (n : Nat) (s : AttributeSlot) :
    AttributeSlot → Prop where
  | intro {raw : Option RawAttribute} {node : Node Expr} : Option.Rel (RawAttribute.Alongside S) s.raw raw →
    AttributeCoupled r E n s.node node → Coupled r S E n s { s with raw, node }

abbrev SlotsCoupled (r : Registry) (S : Token → Token → Prop) (E : Exprs) (n : Nat) :
    List AttributeSlot → List AttributeSlot → Prop :=
  List.Forall₂ (AttributeSlot.Coupled r S E n)

section Attributes

variable {r : Registry} {S : Token → Token → Prop} {E : Exprs} {n : Nat} {slots slots' : List AttributeSlot} {e : Expr}

theorem AttributeCoupled.literal {a : DynamicAttribute Expr} {s : Bytes} (h : a.value = .literal s) :
    AttributeCoupled r E n (.attr a) (.attr a) := by
  have hvalue : ValueCoupled r E n a.value a.value := h ▸ .literal s
  exact .attr hvalue

theorem exists_of_mem_parts {E : Expr → Expr → Prop} {ps ps' : List (Part Expr)} (h : List.Forall₂ (Part.Paired E) ps ps')
    (he : e ∈ ps.flatMap Part.exprs) : ∃ e', E e e' := by
  obtain ⟨p, hp, he⟩ := List.mem_flatMap.1 he
  obtain ⟨_, _, hpaired⟩ := exists_of_forall₂ h.flip hp
  cases hpaired with
  | literal s => cases he
  | expr hE => exact ⟨_, List.mem_singleton.1 he ▸ hE⟩

theorem AttributeCoupled.exists_of_mem_reads {m m' : Node Expr} (h : AttributeCoupled r E n m m')
    (he : e ∈ m.reads) : ∃ e', E 0 n (fun t => Cuts r t m) e e' := by
  cases h with
  | text s => cases he
  | attributeMap exclude hE => exact ⟨_, List.mem_singleton.1 he ▸ hE⟩
  | @attr a _ hvalue =>
    obtain ⟨name, value⟩ := a
    cases hvalue with
    | literal s => cases he
    | expr hE => exact ⟨_, List.mem_singleton.1 he ▸ hE⟩
    | interpolated source hps => exact exists_of_mem_parts hps he

theorem forall₂_written (r : Registry) (E : Exprs) (n : Nat) (written : List RawAttribute) :
    List.Forall₂ (AttributeCoupled r E n) (written.map fun a => .text a.text) (written.map fun a => .text a.text) := by
  refine List.forall₂_same.2 fun m hm => ?_
  obtain ⟨a, _, rfl⟩ := List.mem_map.1 hm
  exact .text _

theorem written_eq (hS : Markup.Placing S) {written written' : List RawAttribute}
    (h : List.Forall₂ (RawAttribute.Alongside S) written written') :
    (written'.map fun a => (.text a.text : Node Expr)) = written.map fun a => .text a.text := by
  induction h with
  | nil => rfl
  | cons ha _ ih => rw [List.map_cons, List.map_cons, ha.text_eq hS, ih]

variable (h : SlotsCoupled r S E n slots slots')
include h

theorem coupled_updateSlot? (name : Bytes) {f f' : AttributeSlot → AttributeSlot} {added added' : AttributeSlot}
    (hf : ∀ s s', s.Coupled r S E n s' → (f s).Coupled r S E n (f' s')) (hadded : added.Coupled r S E n added') :
    SlotsCoupled r S E n ((updateSlot? name f slots).getD (slots ++ [added]))
      ((updateSlot? name f' slots').getD (slots' ++ [added'])) := by
  have hupdate : Option.Rel (SlotsCoupled r S E n) (updateSlot? name f slots) (updateSlot? name f' slots') := by
    induction h with
    | nil => exact .none
    | @cons s s' _ _ hs hrest ih =>
      have hname : s'.name = s.name := by
        cases hs
        rfl
      rw [updateSlot?, updateSlot?, hname]
      split
      · exact .some (.cons (hf _ _ hs) hrest)
      · generalize updateSlot? name f _ = updated at ih ⊢
        generalize updateSlot? name f' _ = updated' at ih ⊢
        cases ih with
        | none => exact .none
        | some ih => exact .some (.cons hs ih)
  generalize updateSlot? name f slots = updated at hupdate ⊢
  generalize updateSlot? name f' slots' = updated' at hupdate ⊢
  cases hupdate with
  | none => exact List.rel_append h (.cons hadded .nil)
  | some hupdate => exact hupdate

variable (hS : Markup.Placing S)
include hS

theorem coupled_addDynamic (name : Bytes) {e' : Expr} (he : E 0 n Listed e e') :
    SlotsCoupled r S E n (addDynamic slots name e) (addDynamic slots' name e') := by
  refine coupled_updateSlot? h name ?_ (.intro .none (.attr (.expr he)))
  rintro ⟨label, raw, node⟩ _ ⟨hraw, _⟩
  cases hraw with
  | none => exact .intro .none (.attr (.expr he))
  | some ha =>
    refine .intro (.some ha) ?_
    dsimp only
    rw [ha.hasValue_eq]
    obtain ⟨_, hvalue⟩ := ha
    rw [hS.value hvalue]
    split <;> exact .attr (.expr he)

theorem coupled_addTranslated (name msgid : Bytes) :
    SlotsCoupled r S E n (addTranslated slots name msgid) (addTranslated slots' name msgid) := by
  refine coupled_updateSlot? h name ?_ (.intro .none (.literal rfl))
  rintro ⟨label, raw, node⟩ _ ⟨hraw, hnode⟩
  have hliteral : ∀ raw : RawAttribute, (literalAttribute raw).value = .literal raw.value.value := fun raw => by
    unfold literalAttribute
    dsimp only
    split <;> rfl
  cases hnode with
  | attr hvalue => exact .intro hraw (.attr hvalue)
  | text s =>
    cases hraw with
    | none => exact .intro .none (.text s)
    | some ha =>
      refine .intro (.some ha) ?_
      rw [ha.literalAttribute_eq hS]
      exact .literal (hliteral _)
  | attributeMap exclude he =>
    cases hraw with
    | none => exact .intro .none (.attributeMap exclude he)
    | some ha =>
      refine .intro (.some ha) ?_
      rw [ha.literalAttribute_eq hS]
      exact .literal (hliteral _)

theorem coupled_addAllTranslated (entries : List (Bytes × Bytes)) :
    SlotsCoupled r S E n (entries.foldl (fun ss e => addTranslated ss e.1 e.2) slots)
      (entries.foldl (fun ss e => addTranslated ss e.1 e.2) slots') := by
  induction entries generalizing slots slots' with
  | nil => exact h
  | cons entry entries ih => exact ih (coupled_addTranslated h hS _ _)

end Attributes

/-- Which results of building go together once so many numbers are drawn. -/
abbrev Pairs (α : Type) := Nat → α → α → Prop

/-- The two go together, however many numbers are drawn beyond some. -/
def From {α : Type} (k : Nat) (Q : Pairs α) (a b : α) : Prop := ∀ n, k ≤ n → Q n a b

theorem From.mono {α : Type} {k n : Nat} {Q : Pairs α} {a b : α} (h : From k Q a b) (hn : k ≤ n) : From n Q a b :=
  fun n' hn' => h n' (Nat.le_trans hn hn')

/-- Something goes together with this, however many numbers are drawn beyond some. -/
def Matched {α : Type} (k : Nat) (Q : Pairs α) (a : α) : Prop := ∃ b, From k Q a b

/-- A relation of two ways of building, given how many numbers are drawn at first and which results go together. -/
abbrev Judgement := ∀ {α : Type}, Nat → Pairs α → Build α → Build α → Prop

/-- What is asked of a relation of ways of building so that it can be followed through all steps. -/
structure Logic (r : Registry) (S : Token → Token → Prop) (Kept : Token → Prop) (Fine : Failure → Prop) (W : Judgement)
    (E : Exprs) : Prop extends Markup.Placing S where
  pure {α : Type} {k : Nat} {Q : Pairs α} {a b : α} : From k Q a b → W k Q (Pure.pure a) (Pure.pure b)
  throw {α : Type} {k : Nat} {Q : Pairs α} {f f' : Failure} :
    Fine f → W k Q (MonadExcept.throw f) (MonadExcept.throw f')
  bind {α β : Type} {k : Nat} {Q : Pairs α} {R : Pairs β} {act act' : Build α}
    {f f' : α → Build β} : W k Q act act' → (∀ n a b, k ≤ n → From n Q a b → W n R (f a) (f' b)) →
    W k R (act >>= f) (act' >>= f')
  lift_bind {α β : Type} {k : Nat} {Q : α → α → Prop} {R : Pairs β} {x x' : Except Failure α} {f f' : α → Build β} :
    (∀ e, x = .error e → Fine e) → Answers Q x x' → (∀ a b, x = .ok a → Q a b → W k R (f a) (f' b)) →
    W k R (liftM x >>= f) (liftM x' >>= f')
  known {α : Type} {k : Nat} {Q : Pairs α} {act act' : Build α} : W k Q act act' →
    W k (fun n a b => Q n a b ∧ ∃ st st', act.run st = .ok (a, st')) act act'
  expression {k : Nat} {Cut : Token → Token → Prop} {t u u' : Token} : Kept t → Cut t u → S u u' →
    W k (fun n => E k n Cut) (expression r u) (expression r u')
  unlocated {f : Failure} : f.site? = none → Fine f
  splitting {t : Token} {f : Failure} : r.fragments t.value = .error f →
    Fine (t.fault .expression (utf8 "Invalid interpolation") (some f))

/-- What is asked of a relation of nodes for tags and texts. -/
structure LeafRules (r : Registry) (E : Exprs) (M : Pairs (Node Expr)) : Prop where
  older {k n : Nat} {Cut : Token → Token → Prop} {e e' : Expr} : E k n Cut e e' → E 0 n Cut e e'
  text {k : Nat} (s : Bytes) : M k (.text s) (.text s)
  omitted {k : Nat} : M k .omitted .omitted
  absent {k : Nat} : M k .absent .absent
  interpolation {k : Nat} {ps ps' : List (Part Expr)} (source : Bytes) :
    List.Forall₂ (Part.Paired (E 0 k (Interpolated r))) ps ps' → M k (.interpolation source ps) (.interpolation source ps')
  shown {k : Nat} {e e' : Expr} (raw : Bool) : E 0 k Whole e e' → M k (.content e raw false) (.content e' raw false)
  element {k : Nat} {start body stop start' body' stop' : Node Expr} (name : Bytes) : M k start start' → M k body body' →
    M k stop stop' → M k (.element name start body stop) (.element name start' body' stop')

/-- What is asked of relations so that they can be followed through tags and texts. -/
structure Coupling (r : Registry) (S : Token → Token → Prop) (Kept : Token → Prop) (Fine : Failure → Prop) (W : Judgement)
    (E : Exprs) (M : Pairs (Node Expr)) : Prop extends Logic r S Kept Fine W E, LeafRules r E M

theorem literalText?_eq_of_paired {E : Expr → Expr → Prop} {ps ps' : List (Part Expr)}
    (h : List.Forall₂ (Part.Paired E) ps ps') : literalText? ps' = literalText? ps := by
  induction h with
  | nil => rfl
  | cons hp _ ih =>
    cases hp with
    | literal s => rw [literalText?, literalText?, ih]
    | expr _ => rfl

/-- Start tags of an element with these attributes go together. -/
abbrev Opens (M : Pairs (Node Expr)) (head : ElementHead) (n : Nat)
    (attributes attributes' : List (Node Expr)) : Prop :=
  ∀ tail, tail = head.start.ending ∨ tail = utf8 ">" →
    M n (.startTag head.start.opening head.name attributes tail) (.startTag head.start.opening head.name attributes' tail)

/-- The tags go together, and they are there on both sides or on none. -/
structure TagsCoupled (M : Pairs (Node Expr)) (n : Nat) (p p' : Node Expr × Node Expr) : Prop where
  start : M n p.1 p'.1
  stop : M n p.2 p'.2
  startPresent : p'.1.isPresent = p.1.isPresent
  stopPresent : p'.2.isPresent = p.2.isPresent

/-- What is known of the clauses, the attributes and the start tags of an element. -/
structure Admits (r : Registry) (Kept : Token → Prop) (E : Exprs) (M : Pairs (Node Expr))
    (head : ElementHead) (ds : Directives) (written : List RawAttribute) : Prop where
  clauses (d : Directive) (t : Token) : ds.clause? d = some t → Kept t
  values : ∀ a ∈ written, Kept a.value
  opens {n : Nat} {st st' : State} {as as' : List (Node Expr)} : (attributes r ds written).run st = .ok (as, st') →
    List.Forall₂ (AttributeCoupled r E n) as as' → Opens M head n as as'
  opensWritten (n : Nat) {t : Token} : ds.clause? .onError = some t →
    Opens M head n (written.map fun a => .text a.text) (written.map fun a => .text a.text)

namespace Coupling

variable {r : Registry} {S : Token → Token → Prop} {Kept : Token → Prop} {Fine : Failure → Prop} {W : Judgement} {E : Exprs}
  {M : Pairs (Node Expr)} (hC : Coupling r S Kept Fine W E M) {k : Nat} {t t' : Token}
include hC

theorem mapM {α α' β : Type} {Q : α → α' → Prop} {f : α → Build β} {f' : α' → Build β} {R : Pairs β} {l : List α}
    {l' : List α'} (hl : List.Forall₂ Q l l') (hf : ∀ a ∈ l, ∀ a', Q a a' → ∀ k, W k R (f a) (f' a')) :
    W k (fun n => List.Forall₂ (R n)) (l.mapM f) (l'.mapM f') := by
  induction hl generalizing k with
  | nil => exact hC.pure fun _ _ => .nil
  | cons ha _ ih =>
    rw [List.mapM_cons, List.mapM_cons]
    refine hC.bind (hf _ List.mem_cons_self _ ha k) fun n b c _ hb => ?_
    refine hC.bind (ih fun a' ha' => hf a' (List.mem_cons_of_mem _ ha')) fun n' bs cs hn' hbs => ?_
    exact hC.pure fun n'' hn'' => .cons (hb n'' (Nat.le_trans hn' hn'')) (hbs n'' hn'')

section Texts

variable (ht : Kept t) (htt' : S t t')
include ht htt'

theorem parts : W k (fun n => List.Forall₂ (Part.Paired (E 0 n (Interpolated r)))) (parts r t) (parts r t') := by
  unfold Builder.parts
  rw [hC.value htt']
  split
  · next f hf => exact hC.throw (hC.splitting hf)
  · next fs hfs =>
    refine hC.mapM (List.forall₂_same.2 fun _ _ => rfl) fun f hf _ heq k => ?_
    obtain rfl := heq
    split
    · next hexpression =>
      exact hC.bind (hC.expression ht (.fragment hfs hf hexpression) (hC.fragmentToken htt' f)) fun n e e' _ he =>
        hC.pure fun n' hn' => .expr (hC.older (he n' hn'))
    · exact hC.pure fun _ _ => .literal _

theorem characterData : W k M (characterData r t) (characterData r t') := by
  unfold Builder.characterData
  rw [hC.value htt']
  split
  · exact hC.pure fun _ _ => hC.text _
  · refine hC.bind (hC.parts ht htt') fun n ps ps' _ hps => ?_
    rw [literalText?_eq_of_paired (hps n (Nat.le_refl n))]
    split
    · exact hC.pure fun _ _ => hC.text _
    · exact hC.pure fun n' hn' => hC.interpolation _ (hps n' hn')

theorem textNode : W k M (textNode r t) (textNode r t') := by
  unfold Builder.textNode
  rw [hC.kind htt', hC.value htt']
  split
  · split
    · exact hC.pure fun _ _ => hC.omitted
    · exact hC.characterData ht htt'
  · exact hC.characterData ht htt'
  · exact hC.pure fun _ _ => hC.text _

end Texts

/-! ### Tags -/

theorem writtenAttribute {a a' : RawAttribute} (ha : Kept a.value) (haa' : a.Alongside S a') :
    W k (AttributeCoupled r E) (writtenAttribute r a) (writtenAttribute r a') := by
  unfold Builder.writtenAttribute
  rw [haa'.hasValue_eq, haa'.text_eq hC.toPlacing, haa'.literalAttribute_eq hC.toPlacing]
  obtain ⟨hname, hvalue⟩ := haa'
  rw [hC.value hname, hC.value hvalue]
  split
  · exact hC.pure fun _ _ => .text _
  · refine hC.bind (hC.parts ha hvalue) fun n ps ps' _ hps => ?_
    rw [literalText?_eq_of_paired (hps n (Nat.le_refl n))]
    split
    · exact hC.pure fun _ _ => .literal rfl
    · exact hC.pure fun n' hn' => .attr (.interpolated _ (hps n' hn'))

theorem placeEntries (ht : Kept t) {entries entries' : List Clause.AttributeEntry}
    (hentries : List.Forall₂ (Clause.AttributeEntry.Alongside S) entries entries')
    (hlisted : ∀ entry ∈ entries, Listed t entry.expr) {slots slots' : List AttributeSlot} {maps maps' : List Expr}
    (hslots : From k (SlotsCoupled r S E) slots slots') (hmaps : From k (fun n => List.Forall₂ (E 0 n Listed)) maps maps') :
    W k (fun n p p' => SlotsCoupled r S E n p.1 p'.1 ∧ List.Forall₂ (E 0 n Listed) p.2 p'.2)
      (placeEntries r entries slots maps) (placeEntries r entries' slots' maps') := by
  induction hentries generalizing k slots slots' maps maps' with
  | nil => exact hC.pure fun n hn => ⟨hslots n hn, hmaps n hn⟩
  | cons hentry _ ih =>
    obtain ⟨hexpr⟩ := hentry
    obtain ⟨hfirst, hlisted⟩ := List.forall_mem_cons.1 hlisted
    unfold Builder.placeEntries
    refine hC.bind (hC.expression ht hfirst hexpr) fun n e e' hn he => ?_
    dsimp only
    split
    · exact ih hlisted (hslots.mono hn) fun n' hn' =>
        List.rel_append (hmaps.mono hn n' hn') (.cons (hC.older (he n' hn')) .nil)
    · refine ih hlisted (fun n' hn' => ?_) (hmaps.mono hn)
      exact coupled_addDynamic (hslots.mono hn n' hn') hC.toPlacing _ (hC.older (he n' hn'))

section Heads

variable {head head' : ElementHead} {stop stop' : Option Markup.Tag} {ds ds' : Directives}
  {written written' : List RawAttribute}
  (hA : Admits r Kept E M head ds written) (hL : Alongside S head head' stop stop' ds ds' written written')

theorem tagsWith (hL : head.TagsAlike head' stop stop') {attributes attributes' : List (Node Expr)}
    (h : Opens M head k attributes attributes') (forceEnd : Bool) :
    TagsCoupled M k (tagsWith head stop attributes forceEnd) (tagsWith head' stop' attributes' forceEnd) := by
  rw [hL.tagsWith_eq]
  unfold Builder.tagsWith
  split
  · exact ⟨h _ (.inl rfl), hC.text _, rfl, rfl⟩
  · split
    · exact ⟨h _ (.inr rfl), hC.text _, rfl, rfl⟩
    · exact ⟨h _ (.inl rfl), hC.absent, rfl, rfl⟩

include hA hL

theorem attributes :
    W k (fun n => List.Forall₂ (AttributeCoupled r E n)) (attributes r ds written) (attributes r ds' written') := by
  refine hC.bind (Q := SlotsCoupled r S E) (hC.mapM hL.written fun a ha a' haa' k => ?_) fun n slots slots' _ hslots => ?_
  · refine hC.bind (hC.writtenAttribute (hA.values a ha) haa') fun n node node' _ hnode => hC.pure fun n' hn' => ?_
    rw [haa'.name_eq hC.toPlacing]
    exact .intro (.some haa') (hnode n' hn')
  refine hC.bind (Q := fun n p p' => SlotsCoupled r S E n p.1 p'.1 ∧ List.Forall₂ (E 0 n Listed) p.2 p'.2) ?_
    fun n p p' _ hp => ?_
  · unfold dynamicSlots
    rcases hL.clauses.clauses .attributes with ⟨hnone, hnone'⟩ | ⟨t, t', ht, ht', htt'⟩
    · rw [hnone, hnone']
      exact hC.pure fun n hn => ⟨hslots n hn, .nil⟩
    · rw [ht, ht']
      refine hC.lift_bind (fun f hf => hC.unlocated (Clause.unlocated_attributes t f hf)) (hC.toPlacing.attributes htt')
        fun entries entries' hread hentries => ?_
      exact hC.placeEntries (hA.clauses _ t ht) hentries (fun entry hentry => .entry hread hentry) hslots fun _ _ => .nil
  obtain ⟨slots, maps⟩ := p
  obtain ⟨slots', maps'⟩ := p'
  refine hC.bind (Q := SlotsCoupled r S E) ?_ fun n' slots slots' hn' hslots => hC.pure fun n'' hn'' => ?_
  · unfold translatedSlots
    rcases hL.clauses.clauses .translatedAttributes with ⟨hnone, hnone'⟩ | ⟨t, t', ht, ht', htt'⟩
    · rw [hnone, hnone']
      exact hC.pure fun n' hn' => (hp n' hn').1
    · rw [ht, ht']
      refine hC.lift_bind (fun f hf => hC.unlocated (Clause.unlocated_translatedAttributes t f hf))
        (hC.toPlacing.translatedAttributes htt') fun entries entries' _ hentries => ?_
      obtain rfl := List.forall₂_eq_eq_eq ▸ hentries
      exact hC.pure fun n' hn' => coupled_addAllTranslated (hp n' hn').1 hC.toPlacing entries
  replace hslots := hslots n'' hn''
  have hexclude : (slots'.map fun s => Text.lower s.name) = slots.map fun s => Text.lower s.name := by
    induction hslots with
    | nil => rfl
    | cons hs _ ih =>
      obtain ⟨_, _⟩ := hs
      rw [List.map_cons, List.map_cons, ih]
  rw [hexclude]
  refine List.rel_append (List.rel_map (fun s s' hs => ?_) hslots) ?_
  · obtain ⟨_, hnode⟩ := hs
    exact hnode
  · exact List.rel_map (fun e e' he => .attributeMap _ he) (hp n'' (Nat.le_trans hn' hn'')).2

theorem tags (forceEnd : Bool) :
    W k (TagsCoupled M) (tags r head stop ds written forceEnd) (tags r head' stop' ds' written' forceEnd) := by
  unfold Builder.tags
  rw [hL.directive]
  split
  · exact hC.pure fun _ _ => ⟨hC.absent, hC.absent, rfl, rfl⟩
  · refine hC.bind (hC.known (hC.attributes hA hL)) fun n as as' _ h => hC.pure fun n' hn' => ?_
    obtain ⟨has, st, st', hrun⟩ := h n' hn'
    exact hC.tagsWith hL.toTagsAlike (hA.opens hrun has) forceEnd

theorem fallback (ht : ds.clause? .onError = some t) (htt' : S t t') :
    W k M (fallback r head stop written t) (fallback r head' stop' written' t') := by
  obtain ⟨u, hu, hsubstitution⟩ := hC.toPlacing.substitution htt'
  unfold Builder.fallback
  rw [hL.directive, hL.name, hsubstitution, written_eq hC.toPlacing hL.written]
  refine hC.bind (hC.expression (hA.clauses _ t ht) Whole.substitution hu) fun n e e' _ he => ?_
  dsimp only
  split
  · exact hC.pure fun n' hn' => hC.shown _ (hC.older (he n' hn'))
  · refine hC.pure fun n' hn' => ?_
    have htags := hC.tagsWith hL.toTagsAlike (hA.opensWritten n' ht) true
    exact hC.element _ htags.start (hC.shown _ (hC.older (he n' hn'))) htags.stop

end Heads

end Coupling

/-! ### Elements -/

/-- What can be put around a node without an expression and without any effect on the rest of the template. -/
inductive Frame : (Node Expr → Node Expr) → Prop where
  | translate (msgid : Bytes) : Frame (.translate msgid)
  | defineSlot (name : Bytes) : Frame (.defineSlot name)
  | domain (name : Bytes) : Frame (.domain name)
  | name (name : Bytes) : Frame (.name name)

/-- What is asked of a relation of nodes for the directives of an element. -/
structure NodeRules (E : Exprs) (M N : Pairs (Node Expr)) : Prop where
  frame {n : Nat} {f : Node Expr → Node Expr} {c c' : Node Expr} : Frame f → N n c c' → N n (f c) (f c')
  substitution {k n : Nat} {e e' : Expr} {c c' : Node Expr} (raw translate : Bool) : E k n Whole e e' → N k c c' →
    N n (.substitution e c raw translate) (.substitution e' c' raw translate)
  tagged {n : Nat} {start stop start' stop' c c' : Node Expr} (name : Bytes) : M n start start' → N n c c' →
    M n stop stop' → N n (.element name start c stop) (.element name start' c' stop')
  omission {k n : Nat} {e e' : Expr} {p p' : Node Expr × Node Expr} {c c' : Node Expr} (name : Bytes) : E k n Whole e e' →
    TagsCoupled M k p p' → N k c c' → N n (.omission e name p.1 c p.2) (.omission e' name p'.1 c' p'.2)
  loop {n : Nat} {names : List Bytes} {e e' : Expr} {c c' : Node Expr} (whitespace : Bytes) :
    (∀ name ∈ names, name ∉ Clause.reservedNames) → E 0 n Whole e e' → N n c c' →
    N n (.loop names e c whitespace) (.loop names e' c' whitespace)
  condition {n : Nat} {e e' : Expr} {c c' : Node Expr} : E 0 n Whole e e' → N n c c' →
    N n (.condition (.expr e) c .absent) (.condition (.expr e') c' .absent)
  define {n : Nat} {as as' : List (Assignment Expr)} {c c' : Node Expr} :
    (∀ a ∈ as, ∀ name ∈ a.names, name ∉ Clause.reservedNames) → List.Forall₂ (Assignment.Paired (E 0 n Listed)) as as' →
    N n c c' → N n (.define as c) (.define as' c')
  onError {n : Nat} {c c' d d' : Node Expr} : N n c c' → M n d d' → N n (.onError c d) (.onError c' d')

/-- What is asked of relations so that they can be followed through the directives of an element. -/
structure Enclosing (r : Registry) (S : Token → Token → Prop) (Kept : Token → Prop) (Fine : Failure → Prop) (W : Judgement)
    (E : Exprs) (M N : Pairs (Node Expr)) : Prop extends Coupling r S Kept Fine W E M, NodeRules E M N

namespace Enclosing

variable {r : Registry} {S : Token → Token → Prop} {Kept : Token → Prop} {Fine : Failure → Prop} {W : Judgement} {E : Exprs}
  {M N N' : Pairs (Node Expr)} (hC : Enclosing r S Kept Fine W E M N) {k : Nat} {t t' : Token} {c c' : Node Expr}
include hC

theorem substitute (ht : Kept t) (htt' : S t t') (hc : From k N c c') (translate : Bool) :
    W k N (substitute r t c translate) (substitute r t' c' translate) := by
  obtain ⟨u, hu, hsubstitution⟩ := hC.toPlacing.substitution htt'
  unfold Builder.substitute
  rw [hsubstitution]
  refine hC.bind (hC.expression ht Whole.substitution hu) fun n e e' _ he => hC.pure fun n' hn' => ?_
  exact hC.substitution _ _ (he n' hn') (hc k (Nat.le_refl k))

section Clauses

variable {ds ds' : Directives} (hds : ds.Alongside S ds')
include hds

theorem message (hc : From k N c c') : From k N (message ds c) (message ds' c') := by
  intro n hn
  unfold Builder.message
  rcases hds.clauses .translate with ⟨hnone, hnone'⟩ | ⟨t, t', ht, ht', htt'⟩
  · rw [hnone, hnone']
    exact hc n hn
  · rw [ht, ht']
    dsimp only
    rw [hC.value htt']
    exact hC.frame (.translate _) (hc n hn)

theorem wrapping {d : Directive} {f f' : Token → Node Expr → Build (Node Expr)}
    (hsome : ∀ t t', ds.clause? d = some t → S t t' → W k N' (f t c) (f' t' c'))
    (hnone : ds.clause? d = none → From k N' c c') : W k N' (wrapping ds d c f) (wrapping ds' d c' f') := by
  unfold Builder.wrapping
  rcases hds.clauses d with ⟨h, h'⟩ | ⟨t, t', ht, ht', htt'⟩
  · rw [h, h']
    exact hC.pure (hnone h)
  · rw [ht, ht']
    exact hsome t t' ht htt'

/-- A directive that only needs its name puts a frame around a node. -/
theorem wrapping_named {d : Directive} {f : Bytes → Node Expr → Node Expr} (hf : ∀ name, Frame (f name))
    (hc : From k N c c') :
    W k N (Builder.wrapping ds d c fun t n => return f (Text.trim t.value) n)
      (Builder.wrapping ds' d c' fun t n => return f (Text.trim t.value) n) := by
  refine hC.wrapping hds (fun t t' _ htt' => ?_) fun _ => hc
  rw [hC.value htt']
  exact hC.pure fun n hn => hC.frame (hf _) (hc n hn)

variable (hkept : ∀ d t, ds.clause? d = some t → Kept t)
include hkept

theorem content (hc : From k N c c') : W k N (content r ds c) (content r ds' c') := by
  unfold Builder.content
  rw [hds.has_eq]
  rcases hds.clauses .content with ⟨hnone, hnone'⟩ | ⟨t, t', ht, ht', htt'⟩
  · rw [hnone, hnone']
    exact hC.pure (hC.message hds hc)
  · rw [ht, ht']
    exact hC.substitute (hkept _ t ht) htt' (hC.message hds hc) _

theorem replaced (hc : From k N c c') : W k N (replaced r ds c) (replaced r ds' c') := by
  unfold Builder.replaced
  rw [hds.has_eq]
  rcases hds.clauses .replace with ⟨hnone, hnone'⟩ | ⟨t, t', ht, ht', htt'⟩
  · rw [hnone, hnone']
    exact hC.pure hc
  · rw [ht, ht']
    exact hC.substitute (hkept _ t ht) htt' hc _

theorem controlled (whitespace : Bytes) (caseSwitch switchId : Nat)
    (hswitch : ∀ t, ds.clause? .switch = some t → ∀ n e e', k ≤ n → E k n Whole e e' →
      N n (.switch switchId e c) (.switch switchId e' c'))
    (hopen : ds.clause? .switch = none → From k N c c')
    (hcase : ∀ t, ds.clause? .case = some t → ∀ n c c' e e', E 0 n Whole e e' → N n c c' →
      N n (.case caseSwitch (some e) c) (.case caseSwitch (some e') c'))
    (hfill : ∀ t, ds.clause? .fillSlot = some t → ∀ n c c', N n c c' →
      N' n (.fillSlot (Text.trim t.value) c) (.fillSlot (Text.trim t.value) c'))
    (hfree : ds.clause? .fillSlot = none → ∀ n c c', N n c c' → N' n c c') :
    W k N' (controlled r ds whitespace caseSwitch switchId c) (controlled r ds' whitespace caseSwitch switchId c') := by
  refine hC.bind (hC.wrapping hds (fun t t' ht htt' => ?_) hopen) fun k c c' _ hc => ?_
  · exact hC.bind (hC.expression (hkept _ t ht) Whole.trimmed (hC.trim htt')) fun _ _ _ hn₁ he =>
      hC.pure fun n hn => hswitch t ht n _ _ (Nat.le_trans hn₁ hn) (he n hn)
  refine hC.bind (hC.wrapping hds (fun t t' ht htt' => ?_) fun _ => hc) fun k c c' _ hc => ?_
  · refine hC.lift_bind (fun f hf => hC.unlocated (Clause.unlocated_iteration t f hf)) (hC.toPlacing.iteration htt')
      fun p p' hp hpp' => ?_
    obtain ⟨names, source'⟩ := p'
    obtain ⟨rfl, hsource⟩ := hpp'
    refine hC.bind (hC.expression (hkept _ t ht) (Whole.iteration hp) hsource) fun n₁ _ _ hn₁ he => hC.pure fun n hn => ?_
    exact hC.loop _ (Clause.not_mem_reservedNames_of_iteration hp) (hC.older (he n hn)) (hc.mono hn₁ n hn)
  refine hC.bind (hC.wrapping hds (fun t t' ht htt' => ?_) fun _ => hc) fun k c c' _ hc => ?_
  · exact hC.bind (hC.expression (hkept _ t ht) Whole.trimmed (hC.trim htt')) fun n₁ _ _ hn₁ he =>
      hC.pure fun n hn => hC.condition (hC.older (he n hn)) (hc.mono hn₁ n hn)
  refine hC.bind (hC.wrapping hds (fun t t' ht htt' => ?_) fun _ => hc) fun k c c' _ hc => ?_
  · exact hC.bind (hC.expression (hkept _ t ht) Whole.trimmed (hC.trim htt')) fun n₁ _ _ hn₁ he =>
      hC.pure fun n hn => hcase t ht n _ _ _ _ (hC.older (he n hn)) (hc.mono hn₁ n hn)
  refine hC.bind (hC.wrapping hds (fun t t' ht htt' => ?_) fun _ => hc) fun k c c' _ hc => ?_
  · refine hC.lift_bind (fun f hf => hC.unlocated (Clause.unlocated_definitions t f hf)) (hC.toPlacing.definitions htt')
      fun definitions definitions' hread hdefinitions => ?_
    refine hC.bind (Q := fun n => List.Forall₂ fun a a' => (∀ name ∈ a.names, name ∉ Clause.reservedNames) ∧
      Assignment.Paired (E 0 n Listed) a a') (hC.mapM hdefinitions fun d hd d' hdd' k => ?_)
      fun n₁ as as' hn₁ has => hC.pure fun n hn => ?_
    · obtain ⟨hexpr⟩ := hdd'
      refine hC.bind (hC.expression (hkept _ t ht) (Listed.definition hread hd) hexpr) fun _ _ _ _ he =>
        hC.pure fun n hn => ⟨Clause.not_mem_reservedNames_of_definitions hread hd, .intro (hC.older (he n hn))⟩
    · refine hC.define (fun a ha => ?_) ((has n hn).imp fun _ _ h => h.2) (hc.mono hn₁ n hn)
      obtain ⟨_, _, hnames, _⟩ := exists_of_forall₂ (has n hn).flip ha
      exact hnames
  refine hC.bind (hC.wrapping_named hds .defineSlot hc) fun k c c' _ hc => ?_
  refine hC.wrapping hds (fun t t' ht htt' => ?_) fun ht n hn => hfree ht n _ _ (hc n hn)
  rw [hC.value htt']
  exact hC.pure fun n hn => hfill t ht n _ _ (hc n hn)

end Clauses

section Heads

variable {head head' : ElementHead} {stop stop' : Option Markup.Tag} {ds ds' : Directives}
  {written written' : List RawAttribute}
  (hA : Admits r Kept E M head ds written) (hL : Alongside S head head' stop stop' ds ds' written written')
include hA hL

theorem enclose (forceEnd : Bool) (hc : From k N c c') :
    W k N (enclose r head stop ds written forceEnd c) (enclose r head' stop' ds' written' forceEnd c') := by
  refine hC.bind (hC.tags hA hL forceEnd) fun n p p' hn hp => ?_
  have hc := hc.mono hn
  have hpn := hp n (Nat.le_refl n)
  have helement : From n N (.element head.name p.1 c p.2) (.element head.name p'.1 c' p'.2) :=
    fun n' hn' => hC.tagged _ (hp n' hn').start (hc n' hn') (hp n' hn').stop
  dsimp only
  unfold Builder.tagged
  rw [hpn.startPresent, hL.name]
  rcases hL.clauses.clauses .omitTag with ⟨hnone, hnone'⟩ | ⟨t, t', ht, ht', htt'⟩
  · rw [hnone, hnone']
    exact hC.pure helement
  · rw [ht, ht']
    dsimp only
    rw [hC.value htt']
    split
    · exact hC.pure helement
    · split
      · exact hC.pure fun n' hn' => hC.tagged _ hC.absent (hc n' hn') hC.absent
      · refine hC.bind (hC.expression (hA.clauses _ t ht) Whole.trimmed (hC.trim htt')) fun n' e e' _ he =>
          hC.pure fun n'' hn'' => ?_
        exact hC.omission _ (he n'' hn'') hpn (hc n (Nat.le_refl n))

theorem wholeElement (hc : From k N c c') :
    W k N (element r head stop ds written c) (element r head' stop' ds' written' c') := by
  rw [Builder.element, Builder.element, hL.clauses.has_eq]
  refine hC.bind (hC.content hL.clauses hA.clauses hc) fun _ _ _ _ hbody => ?_
  exact hC.bind (hC.enclose hA hL _ hbody) fun _ _ _ _ hnode => hC.replaced hL.clauses hA.clauses hnode

theorem enclosed (hc : From k N c c') :
    W k N (enclosed r head stop ds written c) (enclosed r head' stop' ds' written' c') := by
  refine hC.bind (hC.wrapping_named hL.clauses .domain hc) fun k c c' _ hc => ?_
  refine hC.bind (hC.wrapping_named hL.clauses .name hc) fun k c c' _ hc => ?_
  refine hC.wrapping hL.clauses (fun t t' ht htt' => ?_) fun _ => hc
  exact hC.bind (hC.fallback hA hL ht htt') fun n₁ _ _ hn₁ hfallback =>
    hC.pure fun n hn => hC.onError (hc.mono hn₁ n hn) (hfallback n hn)

end Heads

end Enclosing

/-! ### Trees -/

/-- What is met of an element before its children: the switch of a case on it and the number that a switch on it would
have. -/
def enter (s : Surrounding) (ds : Directives) : Build (Nat × Nat) := do
  let case ← caseSwitch s ds
  let switchId ← openSwitch ds
  checkFill s ds
  notePart ds
  openMessage ds
  return (case, switchId)

/-- The directives of an element around it. -/
def surround (r : Registry) (whitespace : Bytes) (head : ElementHead) (stop : Option Markup.Tag) (ds : Directives)
    (written : List RawAttribute) (numbers : Nat × Nat) (content : Node Expr) : Build (Node Expr × Bytes) := do
  let result ← wrap r head stop ds written whitespace numbers.1 numbers.2 content
  closeMessage ds
  return (result, [])

/-- An element with all its directives around its children. -/
def finish (r : Registry) (whitespace : Bytes) (head : ElementHead) (stop : Option Markup.Tag) (ds : Directives)
    (written : List RawAttribute) (numbers : Nat × Nat) (body : List (Node Expr)) : Build (Node Expr × Bytes) :=
  elementOrCall r head stop ds written body >>= surround r whitespace head stop ds written numbers

/-- What was built of a node goes together, and the indentation that it leaves is the same. -/
def ResultCoupled (N : Pairs (Node Expr)) (n : Nat) (p p' : Node Expr × Bytes) : Prop :=
  N n p.1 p'.1 ∧ p'.2 = p.2

theorem node_element (s : Surrounding) (whitespace : Bytes) (head : ElementHead) (children : List Markup.Node)
    (stop : Option Markup.Tag) :
    node s whitespace (.element head children stop) = liftM (Directives.classify head.attributes []) >>= fun p =>
      liftM (p.1.checkExclusions (Markup.Namespace.isDirective head.key.space)) >>= fun _ =>
        enter s p.1 >>= fun numbers => nodes (inside s p.1 numbers.2) [] children >>=
          finish s.registry whitespace head stop p.1 p.2 numbers := by
  simp only [node, enter, bind_assoc, pure_bind]
  rfl

theorem node_element_eq (s : Surrounding) (whitespace : Bytes) (head : ElementHead) (children : List Markup.Node)
    (stop : Option Markup.Tag) {ds : Directives} {written : List RawAttribute}
    (hclassify : Directives.classify head.attributes [] = .ok (ds, written))
    (hexclusions : ds.checkExclusions (Markup.Namespace.isDirective head.key.space) = .ok ()) :
    node s whitespace (.element head children stop) = enter s ds >>= fun numbers =>
      nodes (inside s ds numbers.2) [] children >>= finish s.registry whitespace head stop ds written numbers := by
  have hlift : ∀ {α : Type} (a : α), (liftM (.ok a : Except Failure α) : Build α) = pure a := fun _ => rfl
  simp only [node_element, hclassify, hlift, pure_bind, hexclusions]

/-- What is asked of a relation so that it can be followed through the building of a tree whose elements are of a kind. -/
structure Assembling (r : Registry) (S : Token → Token → Prop) (Kind : ElementHead → Prop) (Kept : Token → Prop)
    (Fine : Failure → Prop) (W : Judgement) (E : Exprs) (M N : Pairs (Node Expr)) : Prop
    extends Enclosing r S Kept Fine W E M N where
  admits {head : ElementHead} {ds : Directives} {written : List RawAttribute} : Kind head →
    Directives.classify head.attributes [] = .ok (ds, written) → Admits r Kept E M head ds written
  leaf {n : Nat} {c c' : Node Expr} : M n c c' → N n c c'
  sequence {n : Nat} {cs cs' : List (Node Expr)} : List.Forall₂ (N n) cs cs' → N n (.sequence cs) (.sequence cs')
  switch {n : Nat} {e e' : Expr} {c c' : Node Expr} (id : Int) : E 0 n Whole e e' → N n c c' →
    N n (.switch id e c) (.switch id e' c')
  case {n : Nat} {e e' : Expr} {c c' : Node Expr} (id : Int) : E 0 n Whole e e' → N n c c' →
    N n (.case id (some e) c) (.case id (some e') c')
  fillSlot {n : Nat} {c c' : Node Expr} (name : Bytes) : N n c c' → N n (.fillSlot name c) (.fillSlot name c')
  call {k : Nat} {t t' : Token} {cs cs' : List (Node Expr)} (extend : Bool) : Kept t → S t t' →
    From k (fun n => List.Forall₂ (N n)) cs cs' →
    W k N (macroCall r t extend (Node.fillsOf cs)) (macroCall r t' extend (Node.fillsOf cs'))
  defineMacro {k : Nat} {t t' : Token} {c c' : Node Expr} : S t t' → From k N c c' →
    W k N (defineMacro t c) (defineMacro t' c')
  enter {k : Nat} (s : Surrounding) {ds ds' : Directives} : ds.Alongside S ds' → W k (fun _ => Eq) (enter s ds) (enter s ds')
  closeMessage {k : Nat} {ds ds' : Directives} : ds.Alongside S ds' →
    W k (fun _ _ _ => True) (closeMessage ds) (closeMessage ds')

namespace Assembling

variable {r : Registry} {S : Token → Token → Prop} {Kind : ElementHead → Prop} {Kept : Token → Prop} {Fine : Failure → Prop}
  {W : Judgement} {E : Exprs} {M N : Pairs (Node Expr)}

section Heads

variable (hC : Assembling r S Kind Kept Fine W E M N) {k : Nat} {head head' : ElementHead} {stop stop' : Option Markup.Tag}
  {ds ds' : Directives} {written written' : List RawAttribute} (hA : Admits r Kept E M head ds written)
  (hL : Alongside S head head' stop stop' ds ds' written written') (whitespace : Bytes)
include hC hA hL

theorem elementOrCall {cs cs' : List (Node Expr)} (hcs : From k (fun n => List.Forall₂ (N n)) cs cs') :
    W k N (elementOrCall r head stop ds written cs) (elementOrCall r head' stop' ds' written' cs') := by
  have hcalled : ∀ {t extend}, call? ds = some (t, extend) → Kept t := by
    intro t extend hcall
    unfold call? at hcall
    split at hcall
    · next ht =>
      cases hcall
      exact hA.clauses _ _ ht
    · next ht =>
      cases hcall
      exact hA.clauses _ _ ht
    · cases hcall
  have hrel := hL.clauses.call?
  unfold Builder.elementOrCall
  generalize call? ds = called at hcalled hrel ⊢
  generalize call? ds' = called' at hrel ⊢
  cases hrel with
  | none => exact hC.wholeElement hA hL fun n hn => hC.sequence (hcs n hn)
  | @some p p' hpp' =>
    obtain ⟨t', extend⟩ := p'
    obtain ⟨htt', rfl⟩ := hpp'
    exact hC.call _ (hcalled rfl) htt' hcs

theorem wrap (caseSwitch switchId : Nat) {c c' : Node Expr} (hc : From k N c c') :
    W k N (wrap r head stop ds written whitespace caseSwitch switchId c)
      (wrap r head' stop' ds' written' whitespace caseSwitch switchId c') := by
  rw [Builder.wrap, Builder.wrap]
  refine hC.bind (hC.controlled hL.clauses hA.clauses whitespace caseSwitch switchId
    (fun _ _ n _ _ hn he => hC.switch _ (hC.older he) (hc n hn)) (fun _ => hc) (fun _ _ _ _ _ _ _ => hC.case _)
    (fun _ _ _ _ _ => hC.fillSlot _) fun _ _ _ _ hc => hc) fun _ _ _ _ hc => ?_
  exact hC.bind (hC.wrapping hL.clauses (fun t t' _ htt' => hC.defineMacro htt' hc) fun _ => hc) fun _ _ _ _ hc =>
    hC.enclosed hA hL hc

theorem surround (numbers : Nat × Nat) {c c' : Node Expr} (hc : From k N c c') :
    W k (ResultCoupled N) (surround r whitespace head stop ds written numbers c)
      (surround r whitespace head' stop' ds' written' numbers c') :=
  hC.bind (hC.wrap hA hL whitespace _ _ hc) fun _ _ _ _ hresult => hC.bind (hC.closeMessage hL.clauses) fun _ _ _ hn _ =>
    hC.pure fun n' hn' => ⟨hresult.mono hn n' hn', rfl⟩

theorem finish (numbers : Nat × Nat) {cs cs' : List (Node Expr)} (hcs : From k (fun n => List.Forall₂ (N n)) cs cs') :
    W k (ResultCoupled N) (finish r whitespace head stop ds written numbers cs)
      (finish r whitespace head' stop' ds' written' numbers cs') :=
  hC.bind (hC.elementOrCall hA hL hcs) fun _ _ _ _ hc => hC.surround hA hL whitespace numbers hc

end Heads

section Nodes

variable {s : Surrounding} (hC : Assembling s.registry S Kind Kept Fine W E M N) {k : Nat} (whitespace : Bytes)
include hC

theorem textStep {t t' : Token} (ht : Kept t) (htt' : S t t') :
    W k (ResultCoupled N) (Builder.node s whitespace (.text t)) (Builder.node s whitespace (.text t')) := by
  rw [Builder.node, Builder.node]
  exact hC.bind (hC.textNode ht htt') fun _ _ _ _ hc => hC.pure fun n hn => ⟨hC.leaf (hc n hn), hC.indentation htt'⟩

theorem elementStep {head head' : ElementHead} {children children' : List Markup.Node} {stop stop' : Option Markup.Tag}
    (hhead : Kind head) (hL : head.Alongside S head' stop stop')
    (hchildren : ∀ ds switchId k, W k (fun n => List.Forall₂ (N n)) (Builder.nodes (inside s ds switchId) [] children)
      (Builder.nodes (inside s ds switchId) [] children')) :
    W k (ResultCoupled N) (Builder.node s whitespace (.element head children stop))
      (Builder.node s whitespace (.element head' children' stop')) := by
  rw [node_element, node_element, hL.directive]
  refine hC.lift_bind (fun f hf => hC.unlocated (Directives.unlocated_classify _ _ f hf)) hL.classify
    fun p p' hclassify hpp' => ?_
  refine hC.lift_bind (fun f hf => hC.unlocated (p.1.unlocated_checkExclusions _ f hf))
    (hpp'.1.checkExclusions hC.toPlacing _) fun _ _ _ _ => ?_
  refine hC.bind (hC.enter s hpp'.1) fun k numbers _ _ hnumbers => ?_
  obtain rfl := hnumbers k (Nat.le_refl k)
  rw [hpp'.1.inside_eq]
  exact hC.bind (hchildren p.1 numbers.2 k) fun _ _ _ _ hcs =>
    hC.finish (hC.admits hhead hclassify) ⟨hL.toTagsAlike, hpp'.1, hpp'.2⟩ whitespace numbers hcs

end Nodes

theorem cons {s : Surrounding} (hC : Assembling s.registry S Kind Kept Fine W E M N) {k : Nat} {whitespace : Bytes}
    {m m' : Markup.Node} {ms ms' : List Markup.Node}
    (hm : W k (ResultCoupled N) (Builder.node s whitespace m) (Builder.node s whitespace m'))
    (hms : ∀ whitespace k, W k (fun n => List.Forall₂ (N n)) (Builder.nodes s whitespace ms)
      (Builder.nodes s whitespace ms')) :
    W k (fun n => List.Forall₂ (N n)) (Builder.nodes s whitespace (m :: ms)) (Builder.nodes s whitespace (m' :: ms')) := by
  rw [Builder.nodes, Builder.nodes]
  refine hC.bind hm fun n p p' _ hp => ?_
  dsimp only
  rw [(hp n (Nat.le_refl n)).2]
  exact hC.bind (hms p.2 n) fun n₁ _ _ hn₁ hcs => hC.pure fun n' hn' => .cons (hp.mono hn₁ n' hn').1 (hcs n' hn')

theorem nodes {s : Surrounding} (hC : Assembling s.registry S Kind Kept Fine W E M N) (whitespace : Bytes) :
    ∀ {ms ms' : List Markup.Node} (k : Nat), Markup.Alongside S ms ms' → (∀ head ∈ Markup.elementHeads ms, Kind head) →
      (∀ t ∈ Markup.textsOf ms, Kept t) →
      W k (fun n => List.Forall₂ (N n)) (Builder.nodes s whitespace ms) (Builder.nodes s whitespace ms')
  | _, _, k, .nil, _, _ => by
    rw [Builder.nodes]
    exact hC.pure fun _ _ => .nil
  | _, _, k, .text htt' hrest, hheads, htexts => by
    obtain ⟨ht, htexts⟩ := List.forall_mem_cons.1 htexts
    exact hC.cons (hC.textStep whitespace ht htt') fun whitespace k => nodes hC whitespace k hrest hheads htexts
  | _, _, k, .element hL hchildren hrest, hheads, htexts => by
    obtain ⟨hhead, hheads⟩ := List.forall_mem_cons.1 hheads
    obtain ⟨hinside, hheads⟩ := List.forall_mem_append.1 hheads
    obtain ⟨htextsInside, htexts⟩ := List.forall_mem_append.1 htexts
    exact hC.cons (hC.elementStep whitespace hhead hL fun ds switchId k =>
      nodes (s := inside s ds switchId) hC [] k hchildren hinside htextsInside)
      fun whitespace k => nodes hC whitespace k hrest hheads htexts

end Assembling

end Builder

end PageTemplate
