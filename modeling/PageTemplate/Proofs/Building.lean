import PageTemplate.Proofs.Coupling
import PageTemplate.Proofs.Expression.Tiling

/-!
What holds of all nodes of a program. A program is put together by one pass over the element tree. Start tags are made
from the elements of the tree, and of every other node it is known which tokens its expressions are cut from: a property
that follows from this holds of the whole program if it holds of the start tags. Failures of building are followed on
the same way. The main statements are `Builder.Sound.build` and `World.unlocated_cook`.
-/

namespace PageTemplate

namespace Node

variable {ε : Type}

def binds : Node ε → List Bytes
  | .loop names _ _ _ => names
  | .define assignments _ => assignments.flatMap (·.names)
  | _ => []

def IsFree (n : Node ε) : Prop := ∀ name ∈ n.binds, name ∉ Clause.reservedNames

theorem isFree_of_binds_eq_nil {n : Node ε} (h : n.binds = []) : n.IsFree := by
  intro name hname
  rw [h] at hname
  cases hname

end Node

namespace Builder

open Markup (Token RawAttribute ElementHead)
open Expression (Registry)

variable {P : AttributeSlot → Prop} {name : Bytes} {e : Expr}

/-- Building succeeds with a property or fails with some failures, and the macros met so far stay made of good nodes. -/
def Builds (Fine : Failure → Prop) (Good : Node Expr → Prop) {α : Type} (Q : α → Prop) (act : Build α) : Prop :=
  ∀ st : State, (∀ m ∈ st.macros, m.2.Every Good) →
    Yields Fine (fun p => Q p.1 ∧ ∀ m ∈ p.2.macros, m.2.Every Good) (act.run st)

namespace Builds

variable {Fine : Failure → Prop} {Good : Node Expr → Prop} {α β : Type} {Q : α → Prop} {R : β → Prop}
variable {f : α → Build β}

theorem pure {a : α} (h : Q a) : Builds Fine Good Q (Pure.pure a) := fun _ hst => .ok ⟨h, hst⟩

theorem throw {f : Failure} (hf : Fine f) : Builds Fine Good Q (MonadExcept.throw f) := fun _ _ => .error hf

theorem bind {x : Build α} (hx : Builds Fine Good Q x) (hf : ∀ a, Q a → Builds Fine Good R (f a)) :
    Builds Fine Good R (x >>= f) :=
  fun st hst => .bind (hx st hst) fun p hp => hf p.1 hp.1 p.2 hp.2

theorem lift_bind {x : Except Failure α} (hx : ∀ e, x = .error e → Fine e)
    (hf : ∀ a, x = .ok a → Builds Fine Good R (f a)) : Builds Fine Good R (liftM x >>= f) := by
  cases x with
  | ok a => exact hf a rfl
  | error e => exact fun _ _ => .error (hx e rfl)

theorem get : Builds Fine Good (fun st : State => ∀ m ∈ st.macros, m.2.Every Good) MonadState.get :=
  fun _ hst => .ok ⟨hst, hst⟩

theorem modifyGet {f : State → α × State} (hQ : ∀ st, Q (f st).1) (hmacros : ∀ st, (f st).2.macros = st.macros) :
    Builds Fine Good Q (MonadState.modifyGet f) :=
  fun st hst => .ok ⟨hQ st, (hmacros st).symm ▸ hst⟩

theorem count {f : State → α × State} (h : ∀ st, (f st).2.macros = st.macros) :
    Builds Fine Good (fun _ => True) (MonadState.modifyGet f) :=
  modifyGet (fun _ => trivial) h

theorem of_imp {Q₁ : α → Prop} {act : Build α} (hQ : ∀ a, Q a → Q₁ a) (h : Builds Fine Good Q act) :
    Builds Fine Good Q₁ act :=
  fun st hst => (h st hst).of_imp fun _ hp => ⟨hQ _ hp.1, hp.2⟩

theorem mapM_forall₂ {S : α → β → Prop} {l : List α} (hf : ∀ a ∈ l, Builds Fine Good (S a) (f a)) :
    Builds Fine Good (List.Forall₂ S l) (l.mapM f) := by
  induction l with
  | nil => exact pure .nil
  | cons a l ih =>
    rw [List.mapM_cons]
    refine bind (hf a List.mem_cons_self) fun b hb => ?_
    exact bind (ih fun a' ha' => hf a' (List.mem_cons_of_mem _ ha')) fun bs hbs => pure (.cons hb hbs)

theorem known {act : Build α} (h : Builds Fine Good Q act) :
    Builds Fine Good (fun a => Q a ∧ ∃ st st', act.run st = .ok (a, st')) act :=
  fun st hst => ⟨fun p hp => ⟨⟨((h st hst).1 p hp).1, st, p.2, hp⟩, ((h st hst).1 p hp).2⟩, (h st hst).2⟩

end Builds

theorem forall_mem_updateSlot? {f : AttributeSlot → AttributeSlot}
    {slots slots' : List AttributeSlot} (hf : ∀ s ∈ slots, Text.equalFold s.name name = true → P s → P (f s))
    (hslots : ∀ s ∈ slots, P s) (h : updateSlot? name f slots = some slots') : ∀ s ∈ slots', P s := by
  induction slots generalizing slots' with
  | nil => simp [updateSlot?] at h
  | cons s slots ih =>
    obtain ⟨hs, hslots⟩ := List.forall_mem_cons.1 hslots
    obtain ⟨hfs, hf⟩ := List.forall_mem_cons.1 hf
    unfold updateSlot? at h
    split at h
    · next hname =>
      cases h
      exact List.forall_mem_cons.2 ⟨hfs hname hs, hslots⟩
    · obtain ⟨rest, hrest, rfl⟩ := Option.map_eq_some_iff.1 h
      exact List.forall_mem_cons.2 ⟨hs, ih hf hslots hrest⟩

/-- What holds of all slots and of a new one, and is kept by a change of one, holds after the change or the addition. -/
theorem forall_mem_updateSlot?_getD {f : AttributeSlot → AttributeSlot}
    {new : AttributeSlot} {slots : List AttributeSlot}
    (hf : ∀ s ∈ slots, Text.equalFold s.name name = true → P s → P (f s)) (hnew : P new)
    (hslots : ∀ s ∈ slots, P s) : ∀ s ∈ (updateSlot? name f slots).getD (slots ++ [new]), P s := by
  cases h : updateSlot? name f slots with
  | some slots' => exact forall_mem_updateSlot? hf hslots h
  | none => simpa [or_imp, forall_and] using ⟨hslots, hnew⟩

variable {r : Registry} {n : Node Expr}

/-! ### Where expressions are read -/

variable {Kept : Token → Prop}

/-- The expression has the text of its token, which is cut from one of some tokens. -/
def Comes (Kept : Token → Prop) (Cut : Token → Token → Prop) (e : Expr) : Prop :=
  e.source = e.token.value ∧ ∃ t, Kept t ∧ Cut t e.token

/-- The node is read off tokens: its expressions are, and the names it binds were checked. -/
structure ReadOff (r : Registry) (Kept : Token → Prop) (n : Node Expr) : Prop where
  exprs : ∀ e ∈ n.reads, Comes Kept (fun t => Cuts r t n) e
  names : n.IsFree

theorem readOff_of_reads_eq_nil (h : n.reads = []) (hbinds : n.binds = []) :
    ReadOff r Kept n := by
  refine ⟨fun e he => ?_, Node.isFree_of_binds_eq_nil hbinds⟩
  rw [h] at he
  cases he

theorem readOff_of_reads_eq (h : n.reads = [e]) (hnames : n.IsFree) (he : Comes Kept (fun t => Cuts r t n) e) :
    ReadOff r Kept n := by
  refine ⟨fun e' he' => ?_, hnames⟩
  rw [h, List.mem_singleton] at he'
  exact he' ▸ he

theorem readOff_of_binds_eq_nil (h : n.reads = [e]) (hbinds : n.binds = [])
    (he : Comes Kept (fun t => Cuts r t n) e) : ReadOff r Kept n :=
  readOff_of_reads_eq h (Node.isFree_of_binds_eq_nil hbinds) he

theorem raw_of_classify (Kept : RawAttribute → Prop) {as : List Markup.Attribute} {ds₀ ds : Directives}
    {written : List RawAttribute} (has : ∀ a ∈ as, Kept a.raw) (hds₀ : ∀ p ∈ ds₀, Kept p.2)
    (h : Directives.classify as ds₀ = .ok (ds, written)) : (∀ p ∈ ds, Kept p.2) ∧ ∀ a ∈ written, Kept a := by
  have hyields : Yields (fun _ => True)
      (fun q : Directives × List RawAttribute => (∀ p ∈ q.1, Kept p.2) ∧ ∀ a ∈ q.2, Kept a)
      (Directives.classify as ds₀) := by
    clear h
    induction as generalizing ds₀ with
    | nil => exact .ok ⟨hds₀, by simp⟩
    | cons a as ih =>
      obtain ⟨ha, has⟩ := List.forall_mem_cons.1 has
      unfold Directives.classify
      split
      · split
        · exact .error trivial
        · split
          · exact .error trivial
          · exact ih has (List.forall_mem_cons.2 ⟨ha, hds₀⟩)
      · split
        · exact ih has hds₀
        · exact .bind (ih has hds₀) fun p hp => .ok ⟨hp.1, List.forall_mem_cons.2 ⟨ha, hp.2⟩⟩
  exact hyields.1 _ h

/-- What is asked of failures and nodes so that building makes no others: all faults of the source are fine, all nodes
but start tags are good if their expressions are read off tokens of the tree, and so are tags of elements of a kind, of
whose attributes the tokens are known. -/
structure Sound (r : Registry) (Kind : ElementHead → Prop) (Kept : Token → Prop) (Fine : Failure → Prop)
    (Good : Node Expr → Prop) : Prop where
  unlocated {f : Failure} : f.site? = none → Fine f
  compiling {source : Bytes} {f : Failure} (kind : FaultKind) (span : Option Span) (summary : Bytes) :
    r.compile source = .error f → Fine (.fault kind span summary (some f))
  splitting {text : Bytes} {f : Failure} (kind : FaultKind) (span : Option Span) (summary : Bytes) :
    r.fragments text = .error f → Fine (.fault kind span summary (some f))
  values {head : ElementHead} : Kind head → ∀ a ∈ head.attributes, Kept a.raw.value
  other {n : Node Expr} : (∀ lead name attributes tail, n ≠ .startTag lead name attributes tail) → ReadOff r Kept n → Good n
  startTag {head : ElementHead} {ds : Directives} {written : List RawAttribute} {attributes : List (Node Expr)}
    {st st' : State} (tail : Bytes) : Kind head → Directives.classify head.attributes [] = .ok (ds, written) →
    (Builder.attributes r ds written).run st = .ok (attributes, st') →
    tail = head.start.ending ∨ tail = utf8 ">" → Good (.startTag head.start.opening head.name attributes tail)
  writtenTag {head : ElementHead} {ds : Directives} {written : List RawAttribute} (tail : Bytes) : Kind head →
    Directives.classify head.attributes [] = .ok (ds, written) → ds.has .onError = true →
    tail = head.start.ending ∨ tail = utf8 ">" →
    Good (.startTag head.start.opening head.name (written.map fun a => .text a.text) tail)

namespace Sound

variable {r : Registry} {Kind : ElementHead → Prop} {Kept : Token → Prop} {Fine : Failure → Prop}
  {Good : Node Expr → Prop} (hS : Sound r Kind Kept Fine Good)
variable {n : Node Expr} {t : Token} {slots : List AttributeSlot} {ds : Directives} {written : List RawAttribute}
include hS

theorem leaf (hall : n.all = [n]) (h : ∀ lead name attributes tail, n ≠ .startTag lead name attributes tail)
    (hread : ReadOff r Kept n) :
    n.Every Good := by
  intro m hm
  rw [hall, List.mem_singleton] at hm
  exact hm ▸ hS.other h hread

theorem text (s : Bytes) : (Node.text s : Node Expr).Every Good := hS.leaf rfl nofun (readOff_of_reads_eq_nil rfl rfl)

omit hS in
theorem absent : (.absent : Node Expr).Every Good := by
  intro m hm
  simp [Node.all] at hm

theorem around (children : List (Node Expr)) (hall : n.all = n :: children.flatMap Node.all)
    (h : ∀ lead name attributes tail, n ≠ .startTag lead name attributes tail) (hread : ReadOff r Kept n)
    (hchildren : ∀ c ∈ children, c.Every Good) : n.Every Good := by
  intro m hm
  rw [hall, List.mem_cons, List.mem_flatMap] at hm
  rcases hm with rfl | ⟨c, hc, hm⟩
  · exact hS.other h hread
  · exact hchildren c hc m hm

theorem body {n body : Node Expr} (hall : n.all = n :: body.all)
    (h : ∀ lead name attributes tail, n ≠ .startTag lead name attributes tail) (hread : ReadOff r Kept n)
    (hbody : body.Every Good) : n.Every Good :=
  hS.around [body] (by simpa using hall) h hread (by simpa using hbody)

theorem sequence {nodes : List (Node Expr)} (hnodes : ∀ n ∈ nodes, n.Every Good) :
    (Node.sequence nodes).Every Good :=
  hS.around nodes (by rw [Node.all, Node.allOf_eq_flatMap]) nofun (readOff_of_reads_eq_nil rfl rfl) hnodes

theorem condition {test : Operand Expr} (htest : test.exprs = [e]) (he : Comes Kept Whole e)
    {yes no : Node Expr} (hyes : yes.Every Good) (hno : no.Every Good) : (Node.condition test yes no).Every Good :=
  hS.around [yes, no] (by simp [Node.all]) nofun (readOff_of_binds_eq_nil htest rfl he) (by simp [hyes, hno])

theorem wholeElement (name : Bytes) {start body stop : Node Expr} (hstart : start.Every Good)
    (hbody : body.Every Good) (hstop : stop.Every Good) : (Node.element name start body stop).Every Good :=
  hS.around [start, body, stop] (by simp [Node.all]) nofun (readOff_of_reads_eq_nil rfl rfl) (by simp [hstart, hbody, hstop])

theorem unlessOmitted (he : Comes Kept Whole e) (hn : n.Every Good) : (Node.unlessOmitted e n).Every Good := by
  unfold Node.unlessOmitted
  split
  · exact hS.condition rfl he hn absent
  · exact absent

theorem expression (t : Token) :
    Builds Fine Good (fun e => e.source = e.token.value ∧ e.token = t) (expression r t) := by
  unfold Builder.expression
  split
  · next f hf => exact .throw (hS.compiling _ _ _ hf)
  · exact .bind (Q := fun _ => True) (.modifyGet (fun _ => trivial) fun _ => rfl) fun _ _ => .pure ⟨rfl, rfl⟩

theorem expressionAt (Cut : Token → Token → Prop) {t' : Token} (ht : Kept t) (hcut : Cut t t') :
    Builds Fine Good (Comes Kept Cut) (Builder.expression r t') := by
  refine .of_imp (fun e he => ⟨he.1, t, ht, ?_⟩) (hS.expression t')
  rw [he.2]
  exact hcut

/-- Building that keeps macros good, as a relation that looks at one side only. -/
abbrev Keeping (Fine : Failure → Prop) (Good : Node Expr → Prop) : Judgement :=
  fun k Q act _ => Builds Fine Good (Matched k Q) act

theorem every_startTag {lead tail : Bytes} {k : Nat} {as as' : List (Node Expr)}
    (has : List.Forall₂ (AttributeCoupled r (fun _ _ Cut e _ => Comes Kept Cut e) k) as as')
    (hgood : Good (.startTag lead name as tail)) : (Node.startTag lead name as tail).Every Good := by
  intro m hm
  rw [Node.all, Node.allOf_eq_flatMap, List.mem_cons, List.mem_flatMap] at hm
  rcases hm with rfl | ⟨n, hn, hm⟩
  · exact hgood
  · obtain ⟨_, _, hattribute⟩ := exists_of_forall₂ has.flip hn
    have hreads : ∀ e ∈ n.reads, Comes Kept (fun t => Cuts r t n) e := fun e he =>
      (hattribute.exists_of_mem_reads he).elim fun _ h => h
    have hevery : n.Every Good := by
      cases hattribute with
      | text _ | attr _ | attributeMap _ _ =>
        exact hS.leaf rfl (fun _ _ _ _ h => by cases h) ⟨hreads, Node.isFree_of_binds_eq_nil rfl⟩
    exact hevery m hm

theorem admits {head : ElementHead} (hhead : Kind head)
    (hclassify : Directives.classify head.attributes [] = .ok (ds, written)) :
    Admits r Kept (fun _ _ Cut e _ => Comes Kept Cut e) (fun _ n _ => n.Every Good) head ds written := by
  obtain ⟨hds, hwritten⟩ := raw_of_classify (fun a => Kept a.value) (hS.values hhead) (by simp) hclassify
  refine ⟨fun d t ht => ?_, hwritten, fun hrun has tail htail => ?_, fun n {t} ht tail htail => ?_⟩
  · obtain ⟨a, ha, rfl⟩ := Option.map_eq_some_iff.1 ht
    obtain ⟨before, after, rfl, _⟩ := List.lookup_eq_some_iff.1 ha
    exact hds _ (List.mem_append_right _ List.mem_cons_self)
  · exact hS.every_startTag has (hS.startTag tail hhead hclassify hrun htail)
  · have hhandler : ds.has .onError = true := by
      obtain ⟨a, ha, _⟩ := Option.map_eq_some_iff.1 ht
      rw [Directives.has, ha, Option.isSome_some]
    exact hS.every_startTag (forall₂_written r _ n written) (hS.writtenTag tail hhead hclassify hhandler htail)

theorem macroCall (ht : Kept t) (extend : Bool) {slots : List (Bytes × Node Expr)}
    (hslots : ∀ s ∈ slots, s.2.Every Good) :
    Builds Fine Good (Node.Every Good) (macroCall r t extend slots) := by
  have hall : ∀ m ∈ Node.allOfSlots slots, Good m := by
    induction slots with
    | nil => simp [Node.allOfSlots]
    | cons s slots ih =>
      obtain ⟨hs, hslots⟩ := List.forall_mem_cons.1 hslots
      intro m hm
      simp only [Node.allOfSlots, List.mem_cons, List.mem_append] at hm
      rcases hm with rfl | hm | hm
      · exact hS.other (fun _ _ _ _ h => by cases h) (readOff_of_reads_eq_nil rfl rfl)
      · exact hs m hm
      · exact ih hslots m hm
  have hcall : ∀ {n : Node Expr}, n.all = n :: Node.allOfSlots slots →
      (∀ lead name attributes tail, n ≠ .startTag lead name attributes tail) → ReadOff r Kept n → n.Every Good := by
    intro n hn h hread m hm
    rw [hn, List.mem_cons] at hm
    rcases hm with rfl | hm
    · exact hS.other h hread
    · exact hall m hm
  unfold Builder.macroCall
  dsimp only
  split
  · exact .bind (Q := fun _ => True) (.modifyGet (fun _ => trivial) fun _ => rfl) fun _ _ =>
      .pure (hcall rfl (fun _ _ _ _ h => by cases h) (readOff_of_reads_eq_nil rfl rfl))
  · exact .bind (hS.expressionAt Whole ht .trimmed) fun _ he =>
      .pure (hcall rfl (fun _ _ _ _ h => by cases h) (readOff_of_binds_eq_nil rfl rfl he))

theorem defineMacro (t : Token) (hn : n.Every Good) :
    Builds Fine Good (Node.Every Good) (defineMacro t n) := by
  have hregister : Builds Fine Good (Node.Every Good) (do
      modify fun st => { st with macros := (Text.trim t.value, n) :: st.macros }
      return Node.macroDef (Text.trim t.value) n) := by
    refine fun st hst => .ok ⟨hS.body rfl nofun (readOff_of_reads_eq_nil rfl rfl) hn, ?_⟩
    exact List.forall_mem_cons.2 ⟨hn, hst⟩
  have hnew : Builds Fine Good (Node.Every Good) (do
      if ((← get).macros.map (·.1)).contains (Text.trim t.value) then
        throw (t.fault .compilation (utf8 "Duplicate macro name " ++ Text.quote (Text.trim t.value)))
      modify fun st => { st with macros := (Text.trim t.value, n) :: st.macros }
      return Node.macroDef (Text.trim t.value) n) := by
    refine .bind .get fun st _ => ?_
    split
    · exact .bind (Q := fun _ => True) (.throw (hS.unlocated rfl)) fun _ _ => hregister
    · exact hregister
  unfold Builder.defineMacro
  dsimp only
  split
  · exact .bind (Q := fun _ => True) (.throw (hS.unlocated rfl)) fun _ _ => hnew
  · exact hnew

theorem notePart (ds : Directives) : Builds Fine Good (fun _ => True) (notePart ds) := by
  unfold Builder.notePart
  split
  · refine .bind .get fun st _ => ?_
    split
    · exact .pure trivial
    · split
      · exact .bind (Q := fun _ => True) (.throw (hS.unlocated rfl)) fun _ _ =>
          .modifyGet (fun _ => trivial) fun _ => rfl
      · exact .modifyGet (fun _ => trivial) fun _ => rfl
  · exact .pure trivial

theorem enter (s : Surrounding) (ds : Directives) : Builds Fine Good (fun _ => True) (enter s ds) := by
  have hcase : Builds Fine Good (fun _ => True) (caseSwitch s ds) := by
    unfold caseSwitch
    split
    · exact .throw (hS.unlocated rfl)
    · exact .pure trivial
    · exact .pure trivial
  have hfill : Builds Fine Good (fun _ => True) (checkFill s ds) := by
    unfold checkFill
    split
    · split
      · exact .pure trivial
      · exact .throw (hS.unlocated rfl)
    · exact .pure trivial
  refine .bind hcase fun _ _ => .bind (.count fun st => ?_) fun _ _ => .bind hfill fun _ _ =>
    .bind (hS.notePart ds) fun _ _ => .bind (.count fun st => ?_) fun _ _ => .pure trivial
  all_goals split <;> rfl

theorem assembling : Assembling r (· = ·) Kind Kept Fine (Keeping Fine Good) (fun _ _ Cut e _ => Comes Kept Cut e)
    (fun _ n _ => n.Every Good) (fun _ n _ => n.Every Good) where
  toPlacing := Markup.placing_eq
  pure h := .pure ⟨_, h⟩
  throw h := .throw h
  bind hact hf := .bind hact fun a ha => ha.elim fun b hb => hf _ a b (Nat.le_refl _) hb
  lift_bind hx hanswers hf := .lift_bind hx fun a ha => (hanswers a ha).elim fun b hb => hf a b ha hb.2
  known h := (Builds.known h).of_imp fun _ ha => ha.1.imp fun _ hb n hn => ⟨hb n hn, ha.2⟩
  expression ht hcut _ := (hS.expressionAt _ ht hcut).of_imp fun e he => ⟨e, fun _ _ => he⟩
  older he := he
  unlocated := hS.unlocated
  splitting := hS.splitting _ _ _
  text := hS.text
  omitted := hS.leaf (n := .omitted) rfl nofun (readOff_of_reads_eq_nil rfl rfl)
  absent := absent
  interpolation _ hps := hS.leaf rfl nofun
    ⟨fun _ he => (exists_of_mem_parts hps he).elim fun _ h => h, Node.isFree_of_binds_eq_nil rfl⟩
  shown _ he := hS.leaf rfl nofun (readOff_of_binds_eq_nil rfl rfl he)
  element name := hS.wholeElement name
  frame hf hc := by cases hf <;> exact hS.body rfl nofun (readOff_of_reads_eq_nil rfl rfl) hc
  substitution _ _ he hc := hS.body rfl nofun (readOff_of_binds_eq_nil rfl rfl he)
    (hS.condition rfl he hc (hS.leaf rfl nofun (readOff_of_binds_eq_nil rfl rfl he)))
  tagged name := hS.wholeElement name
  omission name he hp hc := hS.body rfl nofun (readOff_of_binds_eq_nil rfl rfl he)
    (hS.wholeElement name (hS.unlessOmitted he hp.start) hc (hS.unlessOmitted he hp.stop))
  loop _ hnames he hc := hS.body rfl nofun (readOff_of_reads_eq rfl hnames he) hc
  condition he hc := hS.condition rfl he hc absent
  define hnames has hc := by
    refine hS.body rfl nofun ⟨fun e he => ?_, fun name hname => ?_⟩ hc
    · obtain ⟨a, ha, rfl⟩ := List.mem_map.1 he
      obtain ⟨_, _, hpaired⟩ := exists_of_forall₂ has.flip ha
      obtain ⟨hcomes⟩ := hpaired
      exact hcomes
    · obtain ⟨a, ha, hname⟩ := List.mem_flatMap.1 hname
      exact hnames a ha name hname
  onError {_ c _ d _} hc hd := hS.around [c, d] (by simp [Node.all]) nofun (readOff_of_reads_eq_nil rfl rfl)
    (by simp [hc, hd])
  admits := hS.admits
  leaf h := h
  sequence hcs := hS.sequence (forall_of_forall₂ hcs)
  switch _ he hc := hS.body rfl nofun (readOff_of_binds_eq_nil rfl rfl he) hc
  case _ he hc := hS.body rfl nofun (readOff_of_binds_eq_nil rfl rfl he) hc
  fillSlot _ hc := hS.body rfl nofun (readOff_of_reads_eq_nil rfl rfl) hc
  call extend ht _ hcs := by
    refine (hS.macroCall ht extend fun s hs m hm => ?_).of_imp fun n hn => ⟨n, fun _ _ => hn⟩
    refine hS.sequence (forall_of_forall₂ (hcs _ (Nat.le_refl _))) m ?_
    exact List.mem_cons_of_mem _ (Node.all_subset_of_mem_fillsOf hs (List.mem_cons_of_mem _ hm))
  defineMacro {_ t _ _ _} _ hc := (hS.defineMacro t (hc _ (Nat.le_refl _))).of_imp fun n hn => ⟨n, fun _ _ => hn⟩
  enter {_} s {ds _} _ := (hS.enter s ds).of_imp fun a _ => ⟨a, fun _ _ => rfl⟩
  closeMessage _ := (Builds.count fun st => by split <;> rfl).of_imp fun a _ => ⟨a, fun _ _ => trivial⟩

theorem build (filename source : Bytes) {tree : List Markup.Node}
    (htree : ∀ head ∈ Markup.elementHeads tree, Kind head) (htexts : ∀ t ∈ Markup.textsOf tree, Kept t) :
    Yields Fine (fun m : Module => m.body.Every Good ∧ ∀ p ∈ m.macros, p.2.Every Good)
      (build r filename source tree) := by
  refine .bind (hS.assembling.nodes (s := { registry := r }) [] 0 (.refl tree) htree htexts {} (by simp)) fun p hp => ?_
  obtain ⟨body, st⟩ := p
  obtain ⟨⟨_, hbody⟩, hmacros⟩ := hp
  refine .bind (.forIn fun call _ => ?_) fun _ _ => .ok ⟨?_, ?_⟩
  · dsimp only
    split
    · exact .error (hS.unlocated rfl)
    · exact .ok trivial
  · exact hS.sequence (forall_of_forall₂ (hbody 0 (Nat.le_refl 0)))
  · simpa using hmacros

end Sound

theorem exists_good_of_compileTemplate {filename source : Bytes} {settings : Nat} {p : Program}
    {Good : Node Expr → Prop}
    (hS : ∀ tree, Markup.parse source filename = .ok tree → Sound r (· ∈ Markup.elementHeads tree) (fun _ => True)
      (fun _ => True) Good)
    (h : compileTemplate r filename source settings = .ok p) {n : Node Compiled}
    (hn : n ∈ p.main.all ∨ ∃ q ∈ p.macros, n ∈ q.2.all) :
    ∃ (m : Module) (n₀ : Node Expr), Good n₀ ∧ n₀.CompilesTo (m.compileExpr r) (m.compiled r) n := by
  obtain ⟨tree, m, hparse, hbuild, hmain, hmacros⟩ := exists_module_of_compileTemplate h
  obtain ⟨hbody, hbodies⟩ := ((hS tree hparse).build filename source (fun _ hhead => hhead) fun _ _ => trivial).1 m hbuild
  rcases hn with hn | ⟨q, hq, hn⟩
  · obtain ⟨n₀, hn₀, hcompiles⟩ := hmain.exists_of_mem hn
    exact ⟨m, n₀, hbody n₀ hn₀, hcompiles⟩
  · obtain ⟨q₀, hq₀, _, hbody'⟩ := exists_of_forall₂ hmacros hq
    obtain ⟨n₀, hn₀, hcompiles⟩ := hbody'.exists_of_mem hn
    exact ⟨m, n₀, hbodies q₀ hq₀ n₀ hn₀, hcompiles⟩

end Builder

namespace World

open Builder (Sound)

theorem isNative_registryOf (w : World) (id : Nat) : (w.registryOf id).IsNative := by
  intro name t ht compile
  have hbuiltin : ∀ p ∈ Expression.builtinTypes, ∀ compile, p.2.method ≠ .host compile := by
    simp [Expression.builtinTypes]
  simp only [registryOf, Settings.registry, Expression.Registry.register, Expression.Registry.initial,
    Assoc.get?_insert] at ht
  split at ht
  · cases ht
    nofun
  · exact hbuiltin _ (Assoc.mem_of_get? ht) compile

theorem unlocated_compileTemplate {r : Expression.Registry} (hr : r.IsNative) (filename source : Bytes)
    (settings : Nat) : Unlocated (compileTemplate r filename source settings) := by
  have hS : Sound r (fun _ => True) (fun _ => True) (fun f => f.site? = none) fun _ => True :=
    { unlocated := fun h => h
      compiling := fun kind span summary hf =>
        (Failure.site?_fault_some kind span summary _).trans (r.unlocated_compile hr _ _ hf)
      splitting := fun kind span summary hf =>
        (Failure.site?_fault_some kind span summary _).trans (r.unlocated_fragments hr _ _ hf)
      values := fun _ _ _ => trivial
      other := fun _ _ => trivial
      startTag := fun _ _ _ _ _ => trivial
      writtenTag := fun _ _ _ _ _ => trivial }
  refine .bind (Markup.unlocated_parse source filename) fun tree => ?_
  refine .bind (hS.build filename source (fun _ _ => trivial) fun _ _ => trivial).2 fun m => ?_
  refine (m.compile_yields (fun e f hf => ?_) (fun _ hf => hf) settings).2
  unfold Module.compileExpr at hf
  split at hf
  · cases hf
  · next hcompile =>
    cases hf
    exact hS.compiling _ _ _ hcompile

theorem unlocated_cook (w : World) (id : Nat) : Unlocated (w.cook id).1 := by
  unfold cook
  dsimp only
  split
  · exact .ok _
  · split
    · exact .ok _
    · split
      · next f hf => exact .error (unlocated_compileTemplate (w.isNative_registryOf id) _ _ _ f hf)
      · exact .ok _

end World

theorem exists_module_of_toOption {α : Type} (r : Expression.Registry) (source : Bytes) (f : Module → α) {a : α}
    (h : ((Markup.parse source []).toOption.bind fun tree => (Builder.build r [] source tree).toOption).map f = some a) :
    ∃ tree m, Markup.parse source [] = .ok tree ∧ Builder.build r [] source tree = .ok m ∧ f m = a := by
  obtain ⟨m, hm, hf⟩ := Option.map_eq_some_iff.1 h
  obtain ⟨tree, htree, hm⟩ := Option.bind_eq_some_iff.1 hm
  exact ⟨tree, m, eq_ok_of_toOption htree, eq_ok_of_toOption hm, hf⟩

end PageTemplate
