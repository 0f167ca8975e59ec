import PageTemplate.Proofs.Programs
import PageTemplate.Proofs.Render.Mirroring

/-!
Two renderings side by side, of which one calls macros of its own template by name where the other calls what
expressions give. `Agrees` says that two states are the same but for the journal, and `Alike` that a run is followed by
another one from there to states that agree again.
-/

namespace PageTemplate

namespace Render

open Run (Keeps)

/-- What an activation remembers, without the openings of its switches, which belong to the journal. -/
def Activation.memory (a : Activation) : List (Nat × Value) × List (Int × Value × Bool) := (a.cache, a.switches)

/-- The states are the same but for the journal. -/
inductive Agrees (st : State) : State → Prop where
  | intro (events : List Event) (views : List View) (activations : List Activation)
      (memory : activations.map Activation.memory = st.activations.map Activation.memory) :
      Agrees st { st with events, views, activations }

theorem map_modify_congr {α β : Type} {m : α → β} {f f' : α → α} (hf : ∀ a a', m a' = m a → m (f' a') = m (f a))
    {l l' : List α} (h : l'.map m = l.map m) (i : Nat) : (l'.modify i f').map m = (l.modify i f).map m := by
  induction l generalizing l' i with
  | nil =>
    rw [List.map_eq_nil_iff.1 h]
    cases i <;> rfl
  | cons a l ih =>
    obtain ⟨a', l', rfl, ha, hl⟩ := List.map_eq_cons_iff.1 h
    cases i with
    | zero => simp [hf a a' ha, hl]
    | succ i => simp [ha, ih hl i]

theorem Agrees.refl (st : State) : Agrees st st := .intro st.events st.views st.activations rfl

theorem memory_getD {as as' : List Activation} (h : as'.map Activation.memory = as.map Activation.memory) (i : Nat) :
    (as'.getD i {}).memory = (as.getD i {}).memory := by
  have hi : (as'.map Activation.memory)[i]? = (as.map Activation.memory)[i]? := by rw [h]
  simp only [List.getElem?_map] at hi
  simp only [List.getD_eq_getElem?_getD]
  cases hleft : as'[i]? <;> cases hright : as[i]? <;> simp_all

/-! ### What is exchanged -/

/-- The name of the variable that holds the macros of the template. -/
abbrev macrosName : Bytes := utf8 "macros"

/-- Calls of macros of a program by name for calls of what expressions give. -/
structure Exchange where
  /-- The number of the program. -/
  number : Nat
  program : Program
  /-- The expression may be called in place of the macro of this name. -/
  calls : Bytes → Compiled → Prop

namespace Exchange

variable (X : Exchange)

/-- The number is that of an expression that may be called. -/
def IsNumber (id : Nat) : Prop := ∃ name e, X.calls name e ∧ e.id = id

/-- Nothing has come in between: no variable of the whole render hides the macros of a template, and no expression with
the number of a callable one was evaluated. -/
structure Undisturbed (st : State) : Prop where
  store : st.remote.get? macrosName = none
  numbers (e : Compiled) (r : Except Failure Value) : .evaluated e r ∈ st.events → ¬ X.IsNumber e.id

/-- What is undisturbed afterwards has been so before. -/
def Lasts (st s : State) : Prop := X.Undisturbed s → X.Undisturbed st

namespace Lasts

variable {X}

theorem of_eq {st s : State} (hremote : s.remote = st.remote) (hevents : s.events = st.events) : X.Lasts st s :=
  fun h => ⟨hremote ▸ h.store, hevents ▸ h.numbers⟩

theorem compatible : Compatible X.Lasts where
  trans h h' hs := h (h' hs)
  world _ _ _ := of_eq rfl rfl
  views _ _ _ _ _ := of_eq rfl rfl
  noted _ _ h := ⟨h.store, fun e r hmem => h.numbers e r (List.mem_cons_of_mem _ hmem)⟩
  out _ _ := of_eq rfl rfl
  named _ _ := of_eq rfl rfl
  activations _ _ := of_eq rfl rfl
  failures st v h := by
    refine ⟨?_, h.numbers⟩
    have hstore := h.store
    rwa [Assoc.get?_insert, if_neg (by decide)] at hstore

theorem setGlobal (name : Bytes) (v : Value) : Keeps X.Lasts (setGlobal name v) := by
  refine .modify fun st h => ⟨?_, h.numbers⟩
  have hstore := h.store
  rw [Assoc.get?_insert] at hstore
  split at hstore
  · cases hstore
  · exact hstore

theorem lasting : Lasting X.Lasts :=
  compatible.lasting (fun _ _ => of_eq rfl rfl) (fun _ _ => of_eq rfl rfl) setGlobal

end Lasts

/-- Nothing is to come in between. -/
def watch : Watch where
  Fine := X.Undisturbed
  lasting := Lasts.lasting
  heap _ _ := Lasts.of_eq rfl rfl
  Storable e := ¬X.IsNumber e.id
  storable _ e _ h := h.numbers e _ List.mem_cons_self

/-- No value is remembered under the number of an expression that may be called. -/
def Forgotten (as : List Activation) : Prop := ∀ a ∈ as, ∀ id, X.IsNumber id → a.cache.lookup id = none

variable {X} in
theorem Forgotten.modify {as : List Activation} (h : X.Forgotten as) (i : Nat) {f : Activation → Activation}
    (hf : ∀ a id, X.IsNumber id → a.cache.lookup id = none → (f a).cache.lookup id = none) :
    X.Forgotten (as.modify i f) := by
  intro a ha id hid
  obtain ⟨j, hj, rfl⟩ := List.mem_iff_getElem.1 ha
  have hold := h _ (List.getElem_mem (by simpa using hj)) id hid
  rw [List.getElem_modify]
  split
  · exact hf _ id hid hold
  · exact hold

/-- The runs are in the same world with the program in its place, their activations remember the same, and, where asked,
the variable for the macros holds those of the program. -/
def company (inScope : Bool) : Company where
  worlds := World.Having fun w => w.programs[X.number]? = some X.program
  bisimulation := World.Having.bisimulation fun hstep hw => (World.Evolves.single hstep).program? hw
  heap _ h := by
    obtain ⟨rfl, hw⟩ := h
    exact ⟨rfl, hw⟩
  activations as as' := as'.map Activation.memory = as.map Activation.memory ∧ X.Forgotten as
  length h := by simpa using congrArg List.length h.1
  pinned := if inScope then [(macrosName, X.program.macroTable X.number)] else []
  sites := Eq
  sites_refl _ := rfl
  unbound b hb := by
    have hmacros : macrosName ≠ Expression.loopsName ∧ macrosName ≠ utf8 "error" := by decide
    split at hb
    · rw [List.mem_singleton.1 hb]
      exact hmacros
    · cases hb

variable {X} in
theorem free {k : Bool} {name : Bytes} (h : k = true → macrosName ≠ name) : (X.company k).Free name := by
  intro b hb
  cases k with
  | true =>
    rw [List.mem_singleton.1 hb]
    exact h rfl
  | false => cases hb

theorem fits (k : Bool) (frame : Frame) : (X.company k).Fits X.watch frame frame (fun e e' => e' = e) where
  program := rfl
  settings := rfl
  domain := rfl
  evaluator h := h ▸ rfl
  site h := h ▸ rfl
  recalled he h := by
    subst he
    exact congrArg (fun m => List.lookup _ m.1) (memory_getD h.1 frame.activation)
  cached he hv h := by
    subst he
    refine ⟨map_modify_congr (fun a a' ha => ?_) h.1 _, h.2.modify _ fun a id hid hnone => ?_⟩
    · simp only [Activation.memory, Prod.mk.injEq] at ha ⊢
      exact ⟨by rw [ha.1], ha.2⟩
    · dsimp only
      rw [lookup_setEntry]
      split
      · next heq => exact Classical.byContradiction fun hne => hv hne (heq ▸ hid)
      · exact hnone
  switches h := congrArg Prod.snd (memory_getD h.1 frame.activation)
  switched id v _ _ h := by
    refine ⟨map_modify_congr (fun a a' ha => ?_) h.1 _, h.2.modify _ fun _ _ _ hnone => hnone⟩
    simp only [Activation.memory, Prod.mk.injEq] at ha ⊢
    exact ⟨ha.1, by rw [ha.2]⟩
  opened id _ _ _ _ h := by
    refine ⟨map_modify_congr (fun a a' ha => ?_) h.1 _, h.2.modify _ fun _ _ _ hnone => hnone⟩
    exact ha

/-- The program is in its place, nothing is remembered under the number of a callable expression, and, where asked, the
variable for the macros holds those of the program. -/
structure Held (inScope : Bool) (st : State) : Prop where
  program : st.world.programs[X.number]? = some X.program
  forgotten : X.Forgotten st.activations
  macros : inScope = true → st.vars.get? macrosName = some (X.program.macroTable X.number)

namespace Held

variable {X} {k : Bool} {st : State}

theorem anywhere (hprogram : st.world.programs[X.number]? = some X.program) (hforgotten : X.Forgotten st.activations) :
    X.Held false st :=
  ⟨hprogram, hforgotten, by simp⟩

theorem world_program (h : X.Held k st) : st.world.program X.number = X.program := by
  rw [World.program, List.getD_eq_getElem?_getD, h.program]
  rfl

end Held

variable {X} in
theorem related_iff {k : Bool} {st st' : State} : (X.company k).Related st st' ↔ X.Held k st ∧ Agrees st st' := by
  constructor
  · rintro ⟨⟨rfl, hprogram⟩, ⟨hpinned, hremote⟩, hmemory, hforgotten⟩
    obtain rfl := hremote.eq
    refine ⟨⟨hprogram, hforgotten, fun hk => ?_⟩, .intro _ _ _ hmemory⟩
    subst hk
    exact hpinned _ (List.mem_singleton.2 rfl)
  · rintro ⟨⟨hprogram, hforgotten, hmacros⟩, ⟨events, views, activations, hmemory⟩⟩
    refine .intro ⟨rfl, hprogram⟩ ⟨fun b hb => ?_, .refl _⟩ ⟨hmemory, hforgotten⟩
    cases k with
    | true =>
      rw [List.mem_singleton.1 hb]
      exact hmacros rfl
    | false => cases hb

end Exchange

variable {α : Type}

/-- From states that agree, the second run goes with the first as long as nothing comes in between. -/
abbrev Alike (X : Exchange) (k : Bool) (act act' : Run α) : Prop := Mirrors X.watch (X.company k) act act'

namespace Alike

variable {X : Exchange} {k : Bool}

theorem agrees {act act' : Run α} (h : Alike X k act act') {st s : State} {r : Except Failure α} (hst : X.Held k st)
    (hrun : act.run st = some (r, s)) (hs : X.Undisturbed s) : ∃ s', act'.run st = some (r, s') ∧ Agrees s s' := by
  obtain ⟨_, s', hrun', hr, hrelated⟩ := h.mirrors st st r s (Exchange.related_iff.2 ⟨hst, .refl st⟩) hrun hs
  obtain rfl := hr.eq
  exact ⟨s', hrun', (Exchange.related_iff.1 hrelated).2⟩

theorem renderBody {call : Continuation} {j : Bool} (program : Nat) {body body' : Node Compiled}
    (hprogram : j = true → program = X.number)
    (hbody : ∀ frame : Frame, frame.program = program → Alike X j (call frame body) (call frame body')) (bound : Nat)
    (hkeeps : ∀ frame, Keeps X.Lasts (call frame body)) (slots : Fills) :
    Alike X false (renderBody call program bound body slots) (renderBody call program bound body' slots) := by
  refine Mirrors.renderBody (P := X.company false) (Q := X.company j) program bound (fun _ _ => Iff.rfl) rfl ?_ ?_ ?_ hkeeps
    fun st st' _ => hbody _ rfl
  · rintro as as' ⟨hmemory, hforgotten⟩
    refine ⟨by simp [hmemory], fun a ha id hid => ?_⟩
    rcases List.mem_append.1 ha with ha | ha
    · exact hforgotten a ha id hid
    · rw [List.mem_singleton.1 ha]
      rfl
  · rintro as _ bs bs' _ ⟨hmemory, hforgotten⟩
    exact ⟨by rw [List.map_take, List.map_take, hmemory], fun a ha => hforgotten a (List.mem_of_mem_take ha)⟩
  · rintro _ w ⟨rfl, hw⟩ b hb
    cases j with
    | true =>
      obtain rfl := hprogram rfl
      have hworld : w.program X.number = X.program := by
        rw [World.program, List.getD_eq_getElem?_getD, hw]
        rfl
      rw [List.mem_singleton.1 hb, hworld]
    | false => cases hb

section Calls

variable {call : Continuation} (hcall : ∀ frame n, Alike X false (call frame n) (call frame n))
include hcall

theorem renderFill (fill : Node Compiled × Frame) : Alike X k (renderFill call fill) (renderFill call fill) :=
  Mirrors.renderFill (hcall _ _)

theorem callMacro (frame : Frame) (fills : List (Bytes × Node Compiled)) (extend : Bool) (m : Value) :
    Alike X k (callMacro call frame fills extend m) (callMacro call frame fills extend m) := by
  have hkeeps : ∀ frame n, Keeps X.watch.Lasts (call frame n) := fun frame n => (hcall frame n).lasts
  have hbody : ∀ program bound body slots, Alike X false (Render.renderBody call program bound body slots)
      (Render.renderBody call program bound body slots) := fun program bound body slots =>
    renderBody (j := false) program (by simp) (fun _ _ => hcall _ _) bound (fun _ => hkeeps _ _) slots
  refine Mirrors.callMacro extend m (fun s hs b hb => ?_) (Mirrors.renderMacro hkeeps ⟨?_, ?_, fun name => ?_⟩ m)
  · cases k with
    | true =>
      rw [List.mem_singleton.1 hb]
      exact hs.store
    | false => cases hb
  · rintro _ w program bound ⟨rfl, _⟩
    exact hbody _ _ _ _
  · rintro _ w program bound name ⟨rfl, _⟩
    cases (w.program program).body? name with
    | none => exact .none
    | some body => exact .some (hbody _ _ _ _)
  · cases (passedSlots frame fills extend).lookup name with
    | none => exact .none
    | some fill => exact .some (hcall _ _)

end Calls

end Alike

end Render

end PageTemplate
