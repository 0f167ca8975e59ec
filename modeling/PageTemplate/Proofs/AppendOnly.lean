import PageTemplate.Proofs.Render.Effect
import PageTemplate.Proofs.Render.Textual

/-!
Rendering only adds to the output. Nothing that is rendered can look at what was written before, so a run from one
output tells what the run from any other would do. `RegistersKept` says that every register of a switch comes back with
the opening it held, and that the state of that opening changes only by a case of it. The main statement puts both
together for every node.
-/

namespace PageTemplate

namespace Render

open Run

/-- A switch has the same value, and still knows of a rendered case. -/
def SwitchKept (before after : Option (Value × Bool)) : Prop :=
  after.map (·.1) = before.map (·.1) ∧ ∀ v, before = some (v, true) → after = some (v, true)

namespace SwitchKept

theorem refl (s : Option (Value × Bool)) : SwitchKept s s := ⟨rfl, fun _ h => h⟩

theorem trans {s t u : Option (Value × Bool)} (h : SwitchKept s t) (h' : SwitchKept t u) : SwitchKept s u :=
  ⟨h'.1.trans h.1, fun v hs => h'.2 v (h.2 v hs)⟩

end SwitchKept

/-- What an activation holds under the number of a switch. -/
def State.switch (st : State) (activation : Nat) (id : Int) : Option (Value × Bool) :=
  (st.activations.getD activation {}).switches.lookup id

/-- The opening that an activation holds under the number of a switch. -/
def State.opening (st : State) (activation : Nat) (id : Int) : Option Nat :=
  (st.activations.getD activation {}).openings.lookup id

/-- A case of the opening that was held under the number of a switch has been chosen since. -/
def ChosenSince (st st' : State) (activation : Nat) (id : Int) : Prop :=
  ∃ new, st'.events = new ++ st.events ∧ .chosen ((st.opening activation id).getD 0) ∈ new

theorem ChosenSince.mono {st st₁ st' : State} {i : Nat} {id : Int} (h : ChosenSince st st₁ i id)
    (hevents : st₁.events <:+ st'.events) : ChosenSince st st' i id := by
  obtain ⟨new, hnew, hchosen⟩ := h
  obtain ⟨later, hlater⟩ := hevents
  refine ⟨later ++ new, ?_, List.mem_append_right later hchosen⟩
  rw [← hlater, hnew, List.append_assoc]

/-- All activations are there, and every register holds the same opening with its value. The opening has a rendered case
that it did not have before only if one was chosen. -/
structure RegistersKept (st st' : State) : Prop where
  length_eq : st'.activations.length = st.activations.length
  opening_eq (i : Nat) (id : Int) : st'.opening i id = st.opening i id
  switch (i : Nat) (id : Int) : SwitchKept (st.switch i id) (st'.switch i id)
  events : st.events <:+ st'.events
  chosen (i : Nat) (id : Int) (value : Value) : st.switch i id = some (value, false) →
    st'.switch i id = some (value, true) → ChosenSince st st' i id

namespace State

variable (st : State) (frame : Frame) (i : Nat) (j : Int)

@[simp]
theorem length_setCached (id : Nat) (v : Option Value) :
    (setCached frame id v st).activations.length = st.activations.length := by
  simp [setCached, modifyActivation]

@[simp]
theorem length_setSwitch (id : Int) (v : Option (Value × Bool)) :
    (setSwitch frame id v st).activations.length = st.activations.length := by
  simp [setSwitch, modifyActivation]

@[simp]
theorem length_setRegister (id : Int) (v : Option (Value × Bool)) (s : Option Nat) :
    (setRegister frame id v s st).activations.length = st.activations.length := by
  simp [setRegister, setOpening, modifyActivation]

@[simp]
theorem switch_setCached (id : Nat) (v : Option Value) : (setCached frame id v st).switch i j = st.switch i j := by
  rw [switch, setCached, getD_modifyActivation]
  split <;> rfl

@[simp]
theorem switch_setOpening (id : Int) (opening : Option Nat) :
    (setOpening frame id opening st).switch i j = st.switch i j := by
  rw [switch, setOpening, getD_modifyActivation]
  split <;> rfl

@[simp] theorem switch_setSwitch (id : Int) (v : Option (Value × Bool)) :
    (setSwitch frame id v st).switch i j =
      if i = frame.activation ∧ i < st.activations.length ∧ j = id then v else st.switch i j := by
  rw [switch, setSwitch, getD_modifyActivation]
  grind [switch, lookup_setEntry]

@[simp]
theorem opening_setCached (id : Nat) (v : Option Value) :
    (setCached frame id v st).opening i j = st.opening i j := by
  rw [opening, setCached, getD_modifyActivation]
  split <;> rfl

@[simp]
theorem opening_setSwitch (id : Int) (v : Option (Value × Bool)) :
    (setSwitch frame id v st).opening i j = st.opening i j := by
  rw [opening, setSwitch, getD_modifyActivation]
  split <;> rfl

@[simp] theorem opening_setOpening (id : Int) (s : Option Nat) :
    (setOpening frame id s st).opening i j =
      if i = frame.activation ∧ i < st.activations.length ∧ j = id then s else st.opening i j := by
  rw [opening, setOpening, getD_modifyActivation]
  grind [opening, lookup_setEntry]

@[simp] theorem switch_setRegister (id : Int) (v : Option (Value × Bool)) (s : Option Nat) :
    (setRegister frame id v s st).switch i j =
      if i = frame.activation ∧ i < st.activations.length ∧ j = id then v else st.switch i j := by
  simp [setRegister]

@[simp] theorem opening_setRegister (id : Int) (v : Option (Value × Bool)) (s : Option Nat) :
    (setRegister frame id v s st).opening i j =
      if i = frame.activation ∧ i < st.activations.length ∧ j = id then s else st.opening i j := by
  simp [setRegister]

end State

/-- A case is passed over at once, or its switch is open and has no rendered case. Then it is rendered if it is chosen. -/
theorem run_renderCase_eq_some {frame : Frame} {id : Int} {e : Option Compiled} {body : Run Unit} {st st' : State}
    {r : Except Failure Unit} (h : (renderCase frame id e body).run st = some (r, st')) :
    st' = st ∨ ∃ value r₁ st₁, st.switch frame.activation id = some (value, false) ∧
      (isChosen frame ((st.opening frame.activation id).getD 0) value e).run st = some (r₁, st₁) ∧
      (r₁ = .ok true ∧ body.run (setSwitch frame id (some (value, true))
          { st₁ with events := .chosen ((st.opening frame.activation id).getD 0) :: st₁.events }) = some (r, st') ∨
        r₁ ≠ .ok true ∧ st' = st₁) := by
  rw [renderCase, run_activation_bind] at h
  split at h
  · cases h
    exact .inl rfl
  · cases h
    exact .inl rfl
  · next value hopen =>
    refine .inr ⟨value, ?_⟩
    rcases run_bind_eq_some h with ⟨chosen, st₁, hchosen, hrest⟩ | ⟨f, hchosen, _⟩
    · refine ⟨.ok chosen, st₁, hopen, hchosen, ?_⟩
      cases chosen with
      | false =>
        cases hrest
        exact .inr ⟨by simp, rfl⟩
      | true => exact .inl ⟨rfl, hrest⟩
    · exact ⟨.error f, st', hopen, hchosen, .inr ⟨by simp, rfl⟩⟩

namespace RegistersKept

/-- No register changes, and the journal goes on. -/
theorem of_same {st st' : State} (hlength : st'.activations.length = st.activations.length)
    (hopening : ∀ i id, st'.opening i id = st.opening i id) (hswitch : ∀ i id, st'.switch i id = st.switch i id)
    (hevents : st.events <:+ st'.events) : RegistersKept st st' := by
  refine ⟨hlength, hopening, fun i id => ?_, hevents, fun i id value hbefore hafter => ?_⟩
  · rw [hswitch]
    exact .refl _
  · rw [hswitch, hbefore] at hafter
    cases hafter

theorem of_eq {st st' : State} (hactivations : st'.activations = st.activations)
    (hevents : st.events <:+ st'.events) : RegistersKept st st' :=
  of_same (by rw [hactivations]) (fun i id => by rw [State.opening, hactivations, State.opening])
    (fun i id => by rw [State.switch, hactivations, State.switch]) hevents

theorem trans {st₁ st₂ st₃ : State} (h : RegistersKept st₁ st₂) (h' : RegistersKept st₂ st₃) :
    RegistersKept st₁ st₃ := by
  refine ⟨h'.length_eq.trans h.length_eq, fun i id => (h'.opening_eq i id).trans (h.opening_eq i id),
    fun i id => (h.switch i id).trans (h'.switch i id), h.events.trans h'.events, fun i id value hbefore hafter => ?_⟩
  have hvalue := (h.switch i id).1
  rw [hbefore] at hvalue
  obtain ⟨⟨_, chosen⟩, hmiddle, rfl⟩ := Option.map_eq_some_iff.1 hvalue
  cases chosen with
  | true => exact (h.chosen i id _ hbefore hmiddle).mono h'.events
  | false =>
    obtain ⟨later, hlater, hchosen⟩ := h'.chosen i id _ hmiddle hafter
    obtain ⟨new, hnew⟩ := h.events
    rw [h.opening_eq] at hchosen
    refine ⟨later ++ new, ?_, List.mem_append_left new hchosen⟩
    rw [hlater, ← hnew, List.append_assoc]

theorem textless : Textless RegistersKept where
  refl _ := of_eq rfl List.suffix_rfl
  trans := trans
  world _ _ _ := of_eq rfl List.suffix_rfl
  events _ _ _ := of_eq rfl (List.suffix_cons _ _)
  views _ _ _ _ _ := of_eq rfl List.suffix_rfl
  record _ _ _ := of_eq rfl List.suffix_rfl
  out _ _ := of_eq rfl List.suffix_rfl
  named _ _ := of_eq rfl List.suffix_rfl

theorem cached (frame : Frame) (id : Nat) (v : Option Value) (st : State) :
    RegistersKept st (setCached frame id v st) :=
  of_same (by simp) (by simp) (by simp) List.suffix_rfl

/-- A case is noted as chosen with the opening that the register holds, and the register says so. -/
theorem of_chosen {st st₁ : State} {frame : Frame} {id : Int} {value : Value} (h : RegistersKept st st₁)
    (hopen : st.switch frame.activation id = some (value, false)) :
    RegistersKept st (setSwitch frame id (some (value, true))
      { st₁ with events := .chosen ((st.opening frame.activation id).getD 0) :: st₁.events }) := by
  have hevents : st₁.events <:+ .chosen ((st.opening frame.activation id).getD 0) :: st₁.events :=
    List.suffix_cons _ _
  refine ⟨?_, fun i j => ?_, fun i j => ?_, h.events.trans hevents, fun i j v hbefore hafter => ?_⟩
  · simpa using h.length_eq
  · rw [State.opening_setSwitch]
    exact h.opening_eq i j
  · rw [State.switch_setSwitch]
    split
    · next hplace =>
      obtain ⟨rfl, _, rfl⟩ := hplace
      rw [hopen]
      exact ⟨rfl, fun v hv => by cases hv⟩
    · exact h.switch i j
  · rw [State.switch_setSwitch] at hafter
    split at hafter
    · next hplace =>
      obtain ⟨rfl, _, rfl⟩ := hplace
      obtain ⟨new, hnew⟩ := h.events
      exact ⟨.chosen _ :: new, congrArg _ hnew.symm, List.mem_cons_self⟩
    · exact (h.chosen i j v hbefore hafter).mono hevents

theorem noted (event : Event) (st : State) : RegistersKept st { st with events := event :: st.events } :=
  of_eq rfl (List.suffix_cons _ _)

theorem noting : Noting (keeping RegistersKept) where
  toCompositional := textless.compositional
  note _ := .modify (noted _)
  compared := textless.compared

section Bodies

variable {body : Run Unit} (hbody : Keeps RegistersKept body)
include hbody

theorem renderSwitch (frame : Frame) (id : Int) (e : Compiled) :
    Keeps RegistersKept (renderSwitch frame id e body) := by
  refine textless.bind (textless.evaluateFresh trivial) fun v => textless.bind (noting.noteOpening (U := []) v)
    fun opening => ?_
  intro st r st' h
  rw [run_activation_bind, run_modify_bind] at h
  obtain ⟨st₁, hrun, rfl⟩ := run_restoring_eq_some h
  have hkept := hbody _ _ _ hrun
  have hlength : st₁.activations.length = st.activations.length := by simpa using hkept.length_eq
  -- While the body is rendered the register is another's; what it held before is put back with its opening.
  refine ⟨by simpa using hlength, fun i j => ?_, fun i j => ?_, hkept.events, fun i j value hbefore hafter => ?_⟩
  · have hopening := hkept.opening_eq i j
    rw [State.opening_setRegister] at hopening
    rw [State.opening_setRegister, hlength]
    by_cases hplace : i = frame.activation ∧ i < st.activations.length ∧ j = id
    · rw [if_pos hplace, hplace.1, hplace.2.2]
      rfl
    · rw [if_neg hplace] at hopening ⊢
      exact hopening
  · have hswitch := hkept.switch i j
    rw [State.switch_setRegister] at hswitch
    rw [State.switch_setRegister, hlength]
    by_cases hplace : i = frame.activation ∧ i < st.activations.length ∧ j = id
    · rw [if_pos hplace, hplace.1, hplace.2.2]
      exact .refl _
    · rw [if_neg hplace] at hswitch ⊢
      exact hswitch
  · rw [State.switch_setRegister, hlength] at hafter
    by_cases hplace : i = frame.activation ∧ i < st.activations.length ∧ j = id
    · obtain ⟨rfl, _, rfl⟩ := hplace
      rw [if_pos ⟨rfl, by assumption, rfl⟩] at hafter
      cases hbefore.symm.trans hafter
    · rw [if_neg hplace] at hafter
      have hopened := hkept.chosen i j value
      rw [State.switch_setRegister, if_neg hplace] at hopened
      obtain ⟨new, hnew, hchosen⟩ := hopened hbefore hafter
      rw [State.opening_setRegister, if_neg hplace] at hchosen
      exact ⟨new, hnew, hchosen⟩

theorem renderCase (frame : Frame) (id : Int) (e : Option Compiled) :
    Keeps RegistersKept (renderCase frame id e body) := by
  intro st r st' h
  rcases run_renderCase_eq_some h with rfl | ⟨value, r₁, st₁, hopen, hchosen, hrest⟩
  · exact textless.refl st'
  · have hkept := noting.isChosen (U := []) frame _ value (fun _ _ => trivial) _ _ _ hchosen
    rcases hrest with ⟨_, hrest⟩ | ⟨_, rfl⟩
    · exact (of_chosen hkept hopen).trans (hbody _ _ _ hrest)
    · exact hkept

end Bodies

section Calls

variable {call : Continuation} (hcall : ∀ frame n, Keeps RegistersKept (call frame n))
include hcall

theorem renderFill (fill : Node Compiled × Frame) : Keeps RegistersKept (renderFill call fill) := by
  intro st r st' h
  rw [run_renderFill, Option.map_eq_some_iff] at h
  obtain ⟨⟨r₁, st₁⟩, hrun, hend⟩ := h
  cases hend
  have hkept := hcall _ _ _ _ _ hrun
  exact ⟨hkept.length_eq, hkept.opening_eq, hkept.switch, hkept.events, hkept.chosen⟩

omit hcall in
theorem getD_bodyStart (program : Nat) (st : State) (i : Nat) :
    (bodyStart program st).activations.getD i {} = st.activations.getD i {} := by
  simp only [bodyStart, List.getD_eq_getElem?_getD]
  rcases Nat.lt_trichotomy i st.activations.length with hi | hi | hi
  · rw [List.getElem?_append_left hi]
  · subst hi
    simp
    rfl
  · rw [List.getElem?_eq_none, List.getElem?_eq_none]
    · omega
    · simp
      omega

omit hcall in
theorem getD_take_activations (as : List Activation) (n i : Nat) :
    (as.take n).getD i {} = if i < n then as.getD i {} else {} := by
  simp only [List.getD_eq_getElem?_getD, List.getElem?_take]
  split <;> rfl

/-- The activation of a body is the last one, so no number stands for another when it is gone. -/
theorem renderBody (program bound : Nat) (body : Node Compiled) (slots : Fills) :
    Keeps RegistersKept (renderBody call program bound body slots) := by
  intro st r st' h
  rw [run_renderBody, Option.map_eq_some_iff] at h
  obtain ⟨⟨r₁, st₁⟩, hrun, hend⟩ := h
  cases hend
  have hkept := hcall _ _ _ _ _ hrun
  have hlength : st₁.activations.length = st.activations.length + 1 := by
    simpa [bodyStart] using hkept.length_eq
  have hstart : ∀ i id, (bodyStart program st).switch i id = st.switch i id := fun i id => by
    rw [State.switch, getD_bodyStart, State.switch]
  have hstart_opening : ∀ i id, (bodyStart program st).opening i id = st.opening i id := fun i id => by
    rw [State.opening, getD_bodyStart, State.opening]
  refine ⟨by simp [hlength], fun i id => ?_, fun i id => ?_, hkept.events, fun i id value hbefore hafter => ?_⟩
  · have hopening := hkept.opening_eq i id
    rw [hstart_opening] at hopening
    simp only [State.opening, getD_take_activations] at hopening ⊢
    split
    · exact hopening
    · next hi => rw [List.getD_eq_getElem?_getD, List.getElem?_eq_none (Nat.le_of_not_lt hi)]; rfl
  · have hswitch := hkept.switch i id
    rw [hstart] at hswitch
    simp only [State.switch, getD_take_activations] at hswitch ⊢
    split
    · exact hswitch
    · next hi =>
      rw [List.getD_eq_getElem?_getD, List.getElem?_eq_none (Nat.le_of_not_lt hi)]
      exact .refl _
  · simp only [State.switch, getD_take_activations] at hafter
    split at hafter
    · obtain ⟨new, hnew, hchosen⟩ := hkept.chosen i id value ((hstart i id).trans hbefore) hafter
      rw [hstart_opening] at hchosen
      exact ⟨new, hnew, hchosen⟩
    · cases hafter

end Calls

theorem enclosing : Enclosing (keeping RegistersKept) where
  toCompositional := textless.compositional
  capture named _ hbody _ := textless.capture (hbody []) named
  name name _ hbody _ := textless.renderName (hbody []) name
  switch frame id e _ _ hbody _ := renderSwitch (hbody []) frame id e
  case frame id e _ _ hbody _ := renderCase (hbody []) frame id e

theorem pervasive : Pervasive (keeping RegistersKept) :=
  textless.toElementary.pervasive (textless.structural enclosing fun _ h h' _ => of_eq h (h' ▸ List.suffix_rfl))
    (fun _ _ => of_eq rfl List.suffix_rfl) (fun _ _ => .modify fun _ => of_eq rfl List.suffix_rfl) cached renderFill
    renderBody

end RegistersKept

/-- However rendering a node ends, it has only added to the output, and would have done the same from any other output.
What is rendered next in its frame finds the output, the message around it with at most more parts, and under every number
the opening of a switch that was there with its value; that opening has a rendered case it did not have before only if a
case of it was chosen. -/
theorem output_appended (depth : Nat) (frame : Frame) (n : Node Compiled) (st st' : State)
    (r : Except Failure Unit) (hrun : (node (toDepth depth) frame n).run st = some (r, st')) :
    (∃ written, st'.out = st.out.followedBy written ∧ st'.out.text = st.out.text ++ written.text ∧
      ∀ before, (node (toDepth depth) frame n).run (st.withOutput before) =
        some (r, st'.withOutput (before.followedBy written))) ∧
      (∃ parts, st'.named = st.named.map (·.insertAll parts)) ∧
      st'.activations.length = st.activations.length ∧
      (∀ id, st'.opening frame.activation id = st.opening frame.activation id ∧
        SwitchKept (st.switch frame.activation id) (st'.switch frame.activation id) ∧
        ∀ value, st.switch frame.activation id = some (value, false) →
          st'.switch frame.activation id = some (value, true) → ChosenSince st st' frame.activation id) ∧
      (r = .ok () → ∀ m, (node (toDepth depth) frame (.sequence [n, m])).run st =
        (node (toDepth depth) frame m).run st') := by
  have hkept := RegistersKept.pervasive.node depth frame n [] _ _ _ hrun
  obtain ⟨written, parts, hout, hnamed, hall⟩ := (Transparent.pervasive.node depth frame n []).exists_ending hrun
  refine ⟨⟨written, hout, by rw [hout, Output.text_followedBy], hall⟩, ⟨parts, hnamed⟩, hkept.length_eq,
    fun id => ⟨hkept.opening_eq _ id, hkept.switch _ id, hkept.chosen _ id⟩, ?_⟩
  rintro rfl m
  rw [node, nodeList, run_bind, hrun]
  simp only [nodeList, Option.bind_some]
  rw [bind_pure_unit]

/-- A switch is rendered while another is open under its number, and a case of the other follows, whose body fails. -/
theorem output_appended_failing_case :
    let b := utf8 "b"
    let one : Compiled := ⟨0, .constant (.ofInt 1), default⟩
    let two : Compiled := ⟨1, .constant (.ofInt 2), default⟩
    let unknown : Compiled := ⟨2, .path (utf8 "unknown") [], default⟩
    let inner : Node Compiled := .switch 7 one (.translate [] (.case 7 (some one) (.name b (.text b))))
    let n : Node Compiled := .sequence [inner, .case 7 (some two) (.content unknown false false)]
    let st : State :=
      { world := {}, out := ⟨[utf8 "a"]⟩, named := some []
        activations := [{ switches := [(7, .ofInt 2, false)], openings := [(7, 3)] }] }
    ∃ f st', (node (toDepth 0) default n).run st = some (.error f, st') ∧
      (∃ written, st'.out = st.out.followedBy written ∧
        ∀ before, (node (toDepth 0) default n).run (st.withOutput before) =
          some (.error f, st'.withOutput (before.followedBy written))) ∧
      (∃ parts, st'.named = some (Assoc.insertAll [] parts)) ∧
      st'.opening 0 7 = some 3 ∧ st'.switch 0 7 = some (.ofInt 2, true) ∧
      ∃ new, st'.events = new ++ st.events ∧ .chosen 3 ∈ new := by
  intro b one two unknown inner n st
  obtain ⟨f, st', hrun⟩ := Run.exists_error_of_any (node (toDepth 0) default n) st (by decide +kernel)
  obtain ⟨⟨written, hout, _, hall⟩, hnamed, _, hswitch, _⟩ := output_appended 0 default n st st' (.error f) hrun
  obtain ⟨hopening, ⟨hvalue, _⟩, hchosen⟩ := hswitch 7
  have hvalue : (st'.switch 0 7).map (·.1) = some (.ofInt 2) := hvalue
  obtain ⟨⟨_, chosen⟩, hafter, rfl⟩ := Option.map_eq_some_iff.1 hvalue
  have hflag : ((node (toDepth 0) default n).run st).all (fun p => (p.2.switch 0 7).any (·.2)) = true := by
    decide +kernel
  rw [hrun] at hflag
  have hrendered : (st'.switch 0 7).any (·.2) = true := hflag
  rw [hafter] at hrendered
  obtain rfl : chosen = true := hrendered
  exact ⟨f, st', hrun, ⟨written, hout, hall⟩, hnamed, hopening, hafter, hchosen _ rfl hafter⟩

end Render

end PageTemplate
