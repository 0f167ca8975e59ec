import PageTemplate.Proofs.Evaluation
import PageTemplate.Proofs.Pairing

/-!
Building and compiling one template as another was. A `Track` says which numbers, tokens and expressions of the two
templates go together. `Tracks` says of a step of building that it can be followed from states that are `Behind` one
another, and `assembling_tracking` that all steps can. So if one template is built, one that stands alongside it is
built to paired nodes, and if one module can be compiled, so can a paired one.
-/

namespace PageTemplate

namespace Builder

open Markup (Token RawAttribute ElementHead)
open Expression (Registry)

/-- How one way of building follows another: which numbers they have drawn, which tokens they read, which expressions go
together and which are left out. -/
structure Track where
  counts : Nat → Nat → Prop
  tokens : Token → Token → Prop
  paired : Expr → Expr → Prop
  leftOut : Expr → Prop
  placing : Markup.Placing tokens
  draws {n n' : Nat} {t t' : Token} : counts n n' → tokens t t' → counts (n + 1) (n' + 1) ∧
    paired { id := n, source := t.value, token := t } { id := n', source := t'.value, token := t' }

/-- The second state is where the first one is, as far as the two go together. -/
structure Behind (T : Track) (st st' : State) : Prop where
  nextExpr : T.counts st.nextExpr st'.nextExpr
  nextSwitch : st'.nextSwitch = st.nextSwitch
  macros : Node.SlotsPaired T.paired T.leftOut st.macros st'.macros
  calls : List.Forall₂ (fun c c' => c'.1 = c.1) st.calls st'.calls
  names : st'.names = st.names

variable {T : Track}

/-- From a state that is behind, the second computation goes where the first one goes. -/
def Tracks (T : Track) {α β : Type} (Q : α → β → Prop) (act : Build α) (act' : Build β) : Prop :=
  ∀ st st' a s, Behind T st st' → act.run st = .ok (a, s) →
    ∃ b s', act'.run st' = .ok (b, s') ∧ Q a b ∧ Behind T s s'

namespace Tracks

variable {α β α' β' : Type} {Q : α → β → Prop} {R : α' → β' → Prop}
variable {f : α → Build α'}

theorem pure {a : α} {b : β} (h : Q a b) : Tracks T Q (Pure.pure a) (Pure.pure b) := by
  intro st st' a' s hst hrun
  cases hrun
  exact ⟨b, st', rfl, h, hst⟩

theorem throw (f : Failure) (act' : Build β) : Tracks T Q (MonadExcept.throw f) act' := by
  intro st st' a s _ hrun
  cases hrun

theorem bind {act : Build α} {act' : Build β} {f' : β → Build β'} (hact : Tracks T Q act act')
    (hf : ∀ a b, Q a b → Tracks T R (f a) (f' b)) : Tracks T R (act >>= f) (act' >>= f') := by
  intro st st' a s hst hrun
  obtain ⟨a₁, s₁, hfirst, hrest⟩ := run_bind_eq_ok.1 hrun
  obtain ⟨b₁, s₁', hfirst', hQ, hs₁⟩ := hact st st' a₁ s₁ hst hfirst
  obtain ⟨b, s', hrest', hR, hs⟩ := hf a₁ b₁ hQ s₁ s₁' a s hs₁ hrest
  exact ⟨b, s', run_bind_eq_ok.2 ⟨b₁, s₁', hfirst', hrest'⟩, hR, hs⟩

theorem lift_bind {x : Except Failure α} {x' : Except Failure β} {f' : β → Build β'} (hx : Answers Q x x')
    (hf : ∀ a b, x = .ok a → Q a b → Tracks T R (f a) (f' b)) : Tracks T R (liftM x >>= f) (liftM x' >>= f') := by
  cases x with
  | ok a =>
    obtain ⟨b, rfl, hb⟩ := hx a rfl
    exact hf a b rfl hb
  | error e =>
    intro st st' a s _ hrun
    cases hrun

theorem of_imp {Q' : α → β → Prop} {act : Build α} {act' : Build β} (hQ : ∀ a b, Q a b → Q' a b)
    (h : Tracks T Q act act') : Tracks T Q' act act' := by
  intro st st' a s hst hrun
  obtain ⟨b, s', hrun', hab, hs⟩ := h st st' a s hst hrun
  exact ⟨b, s', hrun', hQ a b hab, hs⟩

theorem look {f : State → Build α'} {f' : State → Build β'} (hf : ∀ st st', Behind T st st' → Tracks T R (f st) (f' st')) :
    Tracks T R (get >>= f) (get >>= f') :=
  fun st st' a s hst hrun => hf st st' hst st st' a s hst hrun

theorem change {g g' : State → State} (hg : ∀ st st', Behind T st st' → Behind T (g st) (g' st')) :
    Tracks T (fun _ _ => True) (modify g : Build Unit) (modify g') := by
  intro st st' a s hst hrun
  cases hrun
  exact ⟨(), g' st', rfl, trivial, hg st st' hst⟩

end Tracks

section Steps

variable (r : Registry) {t t' : Token} {n n' : Node Expr} {ds ds' : Directives}

theorem tracks_expression (h : T.tokens t t') : Tracks T T.paired (expression r t) (expression r t') := by
  intro st st' e s hst hrun
  unfold expression at hrun ⊢
  rw [T.placing.value h] at ⊢
  split at hrun
  · cases hrun
  · cases hrun
    obtain ⟨hcounts, hpaired⟩ := T.draws hst.nextExpr h
    rw [T.placing.value h] at hpaired
    exact ⟨_, _, rfl, hpaired, hcounts, hst.nextSwitch, hst.macros, hst.calls, hst.names⟩

theorem tracks_macroCall (h : T.tokens t t') (extend : Bool) {slots slots' : List (Bytes × Node Expr)}
    (hslots : Node.SlotsPaired T.paired T.leftOut slots slots') :
    Tracks T (Node.Paired T.paired T.leftOut) (macroCall r t extend slots) (macroCall r t' extend slots') := by
  have htrim := T.placing.trim h
  unfold macroCall
  dsimp only
  rw [T.placing.value htrim]
  split
  · refine .bind (.change fun st st' hst => ?_) fun _ _ _ => .pure (.useInternal _ extend hslots)
    exact ⟨hst.nextExpr, hst.nextSwitch, hst.macros, .cons rfl hst.calls, hst.names⟩
  · exact .bind (tracks_expression r htrim) fun _ _ he => .pure (.useExternal extend he hslots)

theorem tracks_defineMacro (h : T.tokens t t') (hn : Node.Paired T.paired T.leftOut n n') :
    Tracks T (Node.Paired T.paired T.leftOut) (defineMacro t n) (defineMacro t' n') := by
  unfold defineMacro
  rw [T.placing.value h]
  dsimp only
  split
  · exact .throw _ _
  · refine .look fun st st' hst => ?_
    rw [hst.macros.map_fst]
    split
    · exact .throw _ _
    · refine .bind (.change fun st st' hst => ?_) fun _ _ _ => .pure (.macroDef _ hn)
      exact ⟨hst.nextExpr, hst.nextSwitch, .cons hn hst.macros, hst.calls, hst.names⟩

variable (hds : ds.Alongside T.tokens ds')
include hds

theorem tracks_notePart : Tracks T (fun _ _ => True) (notePart ds) (notePart ds') := by
  unfold notePart
  rcases hds.clauses .name with ⟨hnone, hnone'⟩ | ⟨t, t', ht, ht', htt'⟩
  · rw [hnone, hnone']
    exact .pure trivial
  · rw [ht, ht']
    unfold noteName
    dsimp only
    rw [T.placing.value htt']
    refine .look fun st st' hst => ?_
    rw [hst.names]
    split
    · exact .pure trivial
    · split
      · exact .throw _ _
      · refine .change fun st st' hst => ?_
        exact ⟨hst.nextExpr, hst.nextSwitch, hst.macros, hst.calls, rfl⟩

theorem tracks_enter (s : Surrounding) : Tracks T (· = ·) (enter s ds) (enter s ds') := by
  have hcase : Tracks T (· = ·) (caseSwitch s ds) (caseSwitch s ds') := by
    unfold caseSwitch
    rcases hds.clauses .case with ⟨hnone, hnone'⟩ | ⟨t, t', ht, ht', _⟩
    · rw [hnone, hnone']
      exact .pure rfl
    · rw [ht, ht']
      cases s.switches with
      | nil => exact .throw _ _
      | cons id _ => exact .pure rfl
  have hswitch : Tracks T (· = ·) (openSwitch ds) (openSwitch ds') := by
    intro st st' a s hst hrun
    cases hrun
    refine ⟨_, _, rfl, hst.nextSwitch.symm, ?_⟩
    rw [hds.has_eq]
    split
    · exact ⟨hst.nextExpr, by dsimp only; rw [hst.nextSwitch], hst.macros, hst.calls, hst.names⟩
    · exact hst
  have hfill : Tracks T (fun _ _ => True) (checkFill s ds) (checkFill s ds') := by
    unfold checkFill
    rcases hds.clauses .fillSlot with ⟨hnone, hnone'⟩ | ⟨t, t', ht, ht', _⟩
    · rw [hnone, hnone']
      exact .pure trivial
    · rw [ht, ht']
      dsimp only
      split
      · exact .pure trivial
      · exact .throw _ _
  have hopen : Tracks T (fun _ _ => True) (openMessage ds) (openMessage ds') := by
    refine .change fun st st' hst => ?_
    rw [hds.has_eq]
    split
    · exact ⟨hst.nextExpr, hst.nextSwitch, hst.macros, hst.calls, by dsimp only; rw [hst.names]⟩
    · exact hst
  exact .bind hcase fun _ _ hcase => .bind hswitch fun _ _ hswitch => .bind hfill fun _ _ _ =>
    .bind (tracks_notePart hds) fun _ _ _ => .bind hopen fun _ _ _ => .pure (by rw [hcase, hswitch])

theorem tracks_closeMessage : Tracks T (fun _ _ => True) (closeMessage ds) (closeMessage ds') := by
  refine .change fun st st' hst => ?_
  rw [hds.has_eq]
  split
  · exact ⟨hst.nextExpr, hst.nextSwitch, hst.macros, hst.calls, by dsimp only; rw [hst.names]⟩
  · exact hst

end Steps

variable {r : Registry} {E : Expr → Expr → Prop} {C : Expr → Prop}

theorem paired_unlessOmitted {e e' : Expr} {n n' : Node Expr} (he : E e e') (h : Node.Paired E C n n')
    (hpresent : n'.isPresent = n.isPresent) : Node.Paired E C (Node.unlessOmitted e n) (Node.unlessOmitted e' n') := by
  unfold Node.unlessOmitted
  rw [hpresent]
  split
  · exact .condition (.not (.expr he)) h .absent
  · exact .absent

theorem AttributeCoupled.paired {k : Nat} {n n' : Node Expr} (h : AttributeCoupled r (fun _ _ _ => E) k n n') :
    Node.Paired E C n n' := by
  cases h with
  | text s => exact .text s
  | attributeMap exclude he => exact .attributeMap exclude he
  | @attr a value hvalue =>
    have hpaired : a.value.Paired E value := by
      generalize a.value = written at hvalue ⊢
      cases hvalue with
      | literal s => exact .literal s
      | expr he => exact .expr he
      | interpolated source hps => exact .interpolated source hps
    exact .attr (.intro hpaired)

theorem admits_tracking (r : Registry) (T : Track) (head : ElementHead) (ds : Directives) (written : List RawAttribute) :
    Admits r (fun _ => True) (fun _ _ _ => T.paired) (fun _ => Node.Paired T.paired T.leftOut) head ds written where
  clauses _ _ _ := trivial
  values _ _ := trivial
  opens _ h _ _ := .startTag _ _ _ (.of_forall₂ (h.imp fun _ _ h => h.paired))
  opensWritten k _ _ _ _ :=
    .startTag _ _ _ (.of_forall₂ ((forall₂_written r (fun _ _ _ => T.paired) k written).imp fun _ _ h => h.paired))

/-- The second way of building goes where the first one goes, as a relation that does not look at numbers drawn. -/
abbrev Tracking (T : Track) : Judgement := fun k Q act act' => Tracks T (From k Q) act act'

theorem Tracks.of_from {α : Type} {Q : Nat → α → α → Prop} {act act' : Build α} (h : Tracks T (From 0 Q) act act') :
    Tracks T (Q 0) act act' :=
  h.of_imp fun _ _ h => h 0 (Nat.le_refl 0)

theorem assembling_tracking (r : Registry) (T : Track) : Assembling r T.tokens (fun _ => True) (fun _ => True)
    (fun _ => True) (Tracking T) (fun _ _ _ => T.paired) (fun _ => Node.Paired T.paired T.leftOut)
    (fun _ => Node.Paired T.paired T.leftOut) where
  toPlacing := T.placing
  pure h := .pure h
  throw _ := .throw _ _
  bind hact hf := .bind hact fun a b h => hf _ a b (Nat.le_refl _) h
  lift_bind _ hx hf := .lift_bind hx hf
  known h st st' a s hst hrun := by
    obtain ⟨b, s', hrun', hQ, hs⟩ := h st st' a s hst hrun
    exact ⟨b, s', hrun', fun n hn => ⟨hQ n hn, st, s, hrun⟩, hs⟩
  expression _ _ h := (tracks_expression r h).of_imp fun _ _ he _ _ => he
  older he := he
  unlocated _ := trivial
  splitting _ := trivial
  text := .text
  omitted := .omitted
  absent := .absent
  interpolation source := .interpolation source
  shown raw := .content raw false
  element name := .element name
  frame hf hc := by
    cases hf with
    | translate msgid => exact .translate msgid hc
    | defineSlot name => exact .defineSlot name hc
    | domain name => exact .domain name hc
    | name name => exact .name name hc
  substitution raw translate he hc := .cache (.cons he .nil) (.condition (.isDefault he) hc (.content raw translate he))
  tagged name := .element name
  omission name he hp hc := .cache (.cons he .nil) (.element name (paired_unlessOmitted he hp.start hp.startPresent) hc
    (paired_unlessOmitted he hp.stop hp.stopPresent))
  loop whitespace _ := .loop _ whitespace
  condition he hc := .condition (.expr he) hc .absent
  define _ := .define
  onError := .onError
  admits _ _ := admits_tracking r T _ _ _
  leaf h := h
  sequence hcs := .sequence (.of_forall₂ hcs)
  switch id := .switch id
  case id he := .case id (.some he)
  fillSlot name := .fillSlot name
  call extend _ h hcs := (tracks_macroCall r h extend (Node.AllPaired.of_forall₂ (hcs _ (Nat.le_refl _))).fills).of_imp
    fun _ _ h _ _ => h
  defineMacro h hc := (tracks_defineMacro h (hc _ (Nat.le_refl _))).of_imp fun _ _ h _ _ => h
  enter {_} s {_ _} hds := (tracks_enter hds s).of_imp fun _ _ h _ _ => h
  closeMessage hds := (tracks_closeMessage hds).of_imp fun _ _ h _ _ => h

theorem tracks_nodes (T : Track) (s : Surrounding) (whitespace : Bytes) {tree tree' : List Markup.Node}
    (h : Markup.Alongside T.tokens tree tree') :
    Tracks T (Node.AllPaired T.paired T.leftOut) (nodes s whitespace tree) (nodes s whitespace tree') :=
  ((assembling_tracking s.registry T).nodes whitespace 0 h (fun _ _ => trivial) fun _ _ => trivial).of_imp
    fun _ _ h => .of_forall₂ (h 0 (Nat.le_refl 0))

/-! ### Modules -/

/-- A module is made of what has been built, unless a macro is called that there is not. -/
def assemble (filename source : Bytes) (body : List (Node Expr)) (st : State) : Except Failure Module := do
  for (name, t) in st.calls.reverse do
    if !(st.macros.reverse.map (·.1)).contains name then
      throw (t.fault .compilation (utf8 "Macro " ++ Text.quote name ++ utf8 " not found"))
  return { filename, source, body := .sequence body, macros := st.macros.reverse }

theorem build_eq (r : Registry) (filename source : Bytes) (tree : List Markup.Node) :
    build r filename source tree =
      ((nodes { registry := r } [] tree).run {}).bind fun p => assemble filename source p.1 p.2 := rfl

end Builder

/-- The modules are the same but for their expressions. -/
structure Module.Paired (E : Expr → Expr → Prop) (C : Expr → Prop) (m m' : Module) : Prop where
  filename : m'.filename = m.filename
  body : Node.Paired E C m.body m'.body
  macros : Node.SlotsPaired E C m.macros m'.macros

/-- The programs are the same but for their expressions. -/
structure Program.Paired (E : Compiled → Compiled → Prop) (C : Compiled → Prop) (p p' : Program) : Prop where
  filename : p'.filename = p.filename
  settings : p'.settings = p.settings
  entries : p'.entries = p.entries
  main : Node.Paired E C p.main p'.main
  macros : Node.SlotsPaired E C p.macros p'.macros

theorem Builder.answers_assemble (filename source source' : Bytes) {E : Expr → Expr → Prop} {C : Expr → Prop}
    {body body' : List (Node Expr)} {st st' : State} (hbody : Node.AllPaired E C body body')
    (hcalls : List.Forall₂ (fun c c' => c'.1 = c.1) st.calls st'.calls)
    (hmacros : Node.SlotsPaired E C st.macros st'.macros) :
    Answers (fun m m' => m.Paired E C m' ∧ m.source = source ∧ m'.source = source')
      (assemble filename source body st) (assemble filename source' body' st') := by
  unfold assemble
  rw [List.map_reverse, List.map_reverse, hmacros.map_fst]
  refine .bind (Q := fun _ _ => True) ?_ fun _ _ _ => .ok ⟨⟨rfl, .sequence hbody, hmacros.reverse⟩, rfl, rfl⟩
  replace hcalls := List.rel_reverse hcalls
  generalize st.calls.reverse = calls at hcalls ⊢
  generalize st'.calls.reverse = calls' at hcalls ⊢
  induction hcalls with
  | nil => exact .ok trivial
  | @cons c c' _ _ hc _ ih =>
    obtain ⟨name, t⟩ := c
    obtain ⟨_, t'⟩ := c'
    obtain rfl := hc
    rw [List.forIn_cons, List.forIn_cons]
    dsimp only
    split
    · exact .error _ _
    · exact ih

/-- If a template can be built, so can one that stands alongside it. -/
theorem Builder.answers_build (T : Track) (hzero : T.counts 0 0) {tree tree' : List Markup.Node}
    (h : Markup.Alongside T.tokens tree tree') (r : Expression.Registry) (filename source source' : Bytes) :
    Answers (fun m m' => m.Paired T.paired T.leftOut m' ∧ m.source = source ∧ m'.source = source')
      (build r filename source tree) (build r filename source' tree') := by
  rw [build_eq, build_eq]
  refine .bind (Q := fun q q' => Node.AllPaired T.paired T.leftOut q.1 q'.1 ∧ Behind T q.2 q'.2) (fun q hq => ?_)
    fun q q' hq => answers_assemble filename source source' hq.1 hq.2.calls hq.2.macros
  obtain ⟨body', st', hrun', hbody, hst⟩ :=
    tracks_nodes T { registry := r } [] h {} {} q.1 q.2 ⟨hzero, rfl, .nil, .nil, rfl⟩ hq
  exact ⟨(body', st'), hrun', hbody, hst⟩

namespace Module

open Expression (Registry)

variable {m m' : Module} {r : Registry} {E : Expr → Expr → Prop} {C : Expr → Prop} {E' : Compiled → Compiled → Prop}
  {C' : Compiled → Prop} (hE : ∀ e e', E e e' → Answers E' (m.compileExpr r e) (m'.compileExpr r e'))
  (hC : ∀ e a, C e → m.compileExpr r e = .ok a → C' a)
include hE hC

theorem answers_compileMacros : ∀ {ss ss' : List (Bytes × Node Expr)} (entries : Assoc Bytes),
    Node.SlotsPaired E C ss ss' → Answers (fun p p' => Node.SlotsPaired E' C' p.1 p'.1 ∧ p'.2 = p.2)
      (m.compileMacros r ss entries) (m'.compileMacros r ss' entries)
  | _, _, entries, .nil => .ok ⟨.nil, rfl⟩
  | _, _, entries, .cons hn hs => by
    unfold compileMacros
    dsimp only
    split
    · exact .error _ _
    · refine .bind (hn.traverse hE hC) fun _ _ hbody => .bind (answers_compileMacros _ hs) fun q q' hq => ?_
      obtain ⟨macros, entries⟩ := q
      obtain ⟨macros', entries'⟩ := q'
      exact .ok ⟨.cons hbody hq.1, hq.2⟩

theorem answers_compile (h : Module.Paired E C m m') (settings : Nat) :
    Answers (fun p p' => p.Paired E' C' p' ∧ p.source = m.source ∧ p'.source = m'.source)
      (m.compile r settings) (m'.compile r settings) := by
  unfold compile
  refine .bind (h.body.traverse hE hC) fun main main' hmain => ?_
  refine .bind (answers_compileMacros hE hC _ h.macros) fun q q' hq => ?_
  obtain ⟨macros, entries⟩ := q
  obtain ⟨macros', entries'⟩ := q'
  exact .ok ⟨⟨h.filename, rfl, hq.2, hmain, hq.1⟩, rfl, rfl⟩

end Module

end PageTemplate
