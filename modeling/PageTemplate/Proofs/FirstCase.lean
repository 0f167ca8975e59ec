import PageTemplate.Proofs.AppendOnly

/-!
Switches. The cases of a switch may stand anywhere below it, and whether one has been rendered is kept in a register of
the activation, which other switches take and give back meanwhile. Each opening of a switch has a number, and `Course`
says what may come to it in the journal. `Journaled` carries this through all rendering; it rests on no two registers
holding the same opening. `CaseRun` ties the journal to what is rendered: the body of a case is, once it is noted as
chosen, and otherwise nothing is.
-/

namespace PageTemplate.Render

open Run

variable {st st' : State}
variable {ev : Event} {value : Value}

/-- The value of a case is the default marker or agrees with the value of the switch. -/
def Matches (value v : Value) : Prop := v.isDefault = true ∨ v.agrees value = true

/-- What may come to a switch opened with a value, newest first, and whether a case was rendered. Cases are tried until
one matches and is rendered, and nothing comes after it; a case whose expression fails has no value, and one without an
expression matches. -/
inductive Course (s : Nat) (value : Value) : Bool → List Event → Prop where
  | opened : Course s value false [.opened s value]
  | failed {e : Compiled} {past : List Event} :
      Course s value false past → Course s value false (.weighed s e :: past)
  | passed {e : Compiled} {v : Value} {past : List Event} :
      Course s value false past → ¬ Matches value v → Course s value false (.judged s v :: .weighed s e :: past)
  | rendered {e : Compiled} {v : Value} {past : List Event} :
      Course s value false past → Matches value v →
      Course s value true (.chosen s :: .judged s v :: .weighed s e :: past)
  | fallback {past : List Event} : Course s value false past → Course s value true (.chosen s :: past)

namespace State

/-- What came to a switch, newest first. -/
def history (st : State) (s : Nat) : List Event := st.events.filter fun ev => ev.opening? = some s

end State

/-- What comes of a case. Its switch is open and has no rendered case, the case is noted as chosen, and then its body is
rendered; or no case is noted as chosen and nothing is written. -/
inductive CaseRun (body : Run Unit) (frame : Frame) (id : Int) (st : State) (r : Except Failure Unit) (st' : State) :
    Prop where
  | rendered {value : Value} {s : Nat} {tried : List Event} {start : State} :
      st.switch frame.activation id = some (value, false) → st.opening frame.activation id = some s →
      start.switch frame.activation id = some (value, true) → start.events = .chosen s :: (tried ++ st.events) →
      (∀ t, .chosen t ∉ tried) → start.out = st.out → body.run start = some (r, st') → CaseRun body frame id st r st'
  | passed {tried : List Event} :
      st'.events = tried ++ st.events → (∀ t, .chosen t ∉ tried) → st'.out = st.out → CaseRun body frame id st r st'

/-- The registers and the journal agree: every switch in the journal has taken its course, every register of an open
switch holds its value and state, and no two hold the same one. -/
structure Journaled (st : State) : Prop where
  lt {ev : Event} {s : Nat} : ev ∈ st.events → ev.opening? = some s → s < st.events.length
  course {ev : Event} {s : Nat} : ev ∈ st.events → ev.opening? = some s →
    ∃ value chosen, Course s value chosen (st.history s)
  register {i : Nat} {id : Int} {value : Value} {chosen : Bool} : st.switch i id = some (value, chosen) →
    ∃ s, st.opening i id = some s ∧ Course s value chosen (st.history s)
  opening_lt {i : Nat} {id : Int} {s : Nat} : st.opening i id = some s → s < st.events.length
  distinct {i j : Nat} {id id' : Int} {s : Nat} :
    st.opening i id = some s → st.opening j id' = some s → i = j ∧ id = id'

theorem journaled_of_fresh (hevents : st.events = [])
    (hclosed : ∀ i id, st.switch i id = none ∧ st.opening i id = none) : Journaled st where
  lt hmem := by simp [hevents] at hmem
  course hmem := by simp [hevents] at hmem
  register hopen := by simp [(hclosed _ _).1] at hopen
  opening_lt hopen := by simp [(hclosed _ _).2] at hopen
  distinct hopen := by simp [(hclosed _ _).2] at hopen

theorem Journaled.congr (hst : Journaled st) (hswitch : ∀ i id, st'.switch i id = st.switch i id)
    (hopening : ∀ i id, st'.opening i id = st.opening i id) (hevents : st'.events = st.events) : Journaled st' := by
  have hhistory : ∀ s, st'.history s = st.history s := fun s => by rw [State.history, hevents, State.history]
  refine ⟨?_, ?_, ?_, ?_, ?_⟩
  · rw [hevents]
    exact hst.lt
  · intro ev s hev hs
    rw [hevents] at hev
    rw [hhistory]
    exact hst.course hev hs
  · intro i id value chosen hopen
    rw [hswitch] at hopen
    rw [hopening]
    obtain ⟨s, hs, hcourse⟩ := hst.register hopen
    refine ⟨s, hs, ?_⟩
    rw [hhistory]
    exact hcourse
  · intro i id s hs
    rw [hopening] at hs
    rw [hevents]
    exact hst.opening_lt hs
  · intro i j id id' s hs hs'
    rw [hopening] at hs hs'
    exact hst.distinct hs hs'

/-! ### What a run does to the journal -/

/-- The journal stays sound, the registers keep their openings, and nothing came to a switch that was not open. -/
structure Journaling (st st' : State) : Prop where
  journaled : Journaled st'
  opening_eq (i : Nat) (id : Int) : st'.opening i id = st.opening i id
  history_eq {s : Nat} : s < st.events.length → (∀ i id, st.opening i id ≠ some s) → st'.history s = st.history s
  length_le : st.events.length ≤ st'.events.length
  activations_eq : st'.activations.length = st.activations.length

/-- A sound journal is continued. -/
def JournalKept (st st' : State) : Prop := Journaled st → Journaling st st'

theorem JournalKept.trans {st₁ st₂ st₃ : State} (h : JournalKept st₁ st₂) (h' : JournalKept st₂ st₃) :
    JournalKept st₁ st₃ := by
  intro hst
  have hfirst := h hst
  have hsecond := h' hfirst.journaled
  refine ⟨hsecond.journaled, fun i id => ?_, fun {s} hlt hclosed => ?_, ?_,
    hsecond.activations_eq.trans hfirst.activations_eq⟩
  · rw [hsecond.opening_eq, hfirst.opening_eq]
  · have hclosed' : ∀ i id, st₂.opening i id ≠ some s := fun i id => by
      rw [hfirst.opening_eq]
      exact hclosed i id
    have hlt' : s < st₂.events.length := Nat.lt_of_lt_of_le hlt hfirst.length_le
    rw [hsecond.history_eq hlt' hclosed', hfirst.history_eq hlt hclosed]
  · exact Nat.le_trans hfirst.length_le hsecond.length_le

/-- The registers are the same, and of the events that were noted, these are about switches. -/
structure Noted (about : List Event) (st st' : State) : Prop where
  switch_eq (i : Nat) (id : Int) : st'.switch i id = st.switch i id
  opening_eq (i : Nat) (id : Int) : st'.opening i id = st.opening i id
  activations_eq : st'.activations.length = st.activations.length
  events : ∃ new, st'.events = new ++ st.events ∧ new.filter (·.opening?.isSome) = about

namespace Noted

variable {about about' : List Event} {st st₁ st' : State}

theorem of_eq (hactivations : st'.activations = st.activations) (hevents : st'.events = st.events) : Noted [] st st' :=
  ⟨fun i id => by rw [State.switch, hactivations, State.switch],
    fun i id => by rw [State.opening, hactivations, State.opening], by rw [hactivations], [], hevents, rfl⟩

theorem of_event (st : State) (ev : Event) :
    Noted ([ev].filter (·.opening?.isSome)) st { st with events := ev :: st.events } :=
  ⟨fun _ _ => rfl, fun _ _ => rfl, rfl, [ev], rfl, rfl⟩

theorem trans (h : Noted about st st₁) (h' : Noted about' st₁ st') : Noted (about' ++ about) st st' := by
  obtain ⟨new, hnew, hfilter⟩ := h.events
  obtain ⟨new', hnew', hfilter'⟩ := h'.events
  refine ⟨fun i id => ?_, fun i id => ?_, h'.activations_eq.trans h.activations_eq, new' ++ new, ?_, ?_⟩
  · rw [h'.switch_eq, h.switch_eq]
  · rw [h'.opening_eq, h.opening_eq]
  · rw [hnew', hnew, List.append_assoc]
  · rw [List.filter_append, hfilter, hfilter']

theorem elementary : Elementary (Noted []) where
  refl _ := of_eq rfl rfl
  trans := trans
  world _ _ _ := of_eq rfl rfl
  events st ev hev := by simpa [hev] using of_event st ev
  views _ _ _ _ _ := of_eq rfl rfl
  append _ _ := of_eq rfl rfl
  record _ _ _ := of_eq rfl rfl

variable (h : Noted about st st')
include h

theorem history_eq (s : Nat) : st'.history s = about.filter (fun ev => ev.opening? = some s) ++ st.history s := by
  obtain ⟨new, hnew, rfl⟩ := h.events
  rw [State.history, hnew, List.filter_append, List.filter_filter, State.history]
  congr 2
  funext ev
  cases ev.opening? <;> simp

theorem length_le : st.events.length ≤ st'.events.length := by
  obtain ⟨new, hnew, _⟩ := h.events
  rw [hnew, List.length_append]
  omega

theorem mem_of_mem {s : Nat} (hev : ev ∈ st'.events) (hs : ev.opening? = some s) : ev ∈ about ∨ ev ∈ st.events := by
  obtain ⟨new, hnew, rfl⟩ := h.events
  rw [hnew, List.mem_append] at hev
  exact hev.imp_left fun hmem => List.mem_filter.2 ⟨hmem, by rw [hs]; rfl⟩

end Noted

/-- The journal goes on: what is new in it is about open switches, which go on to take their course, and the registers of
open switches hold their values and states. -/
theorem Journaling.of_noted {st₁ : State} {about : List Event} (hst : Journaled st) (hnoted : Noted about st st₁)
    (hevents : st'.events = st₁.events) (hopenings : ∀ i id, st'.opening i id = st.opening i id)
    (hactivations : st'.activations.length = st₁.activations.length)
    (habout : ∀ ev ∈ about, ∀ s, ev.opening? = some s →
      (∃ i id, st.opening i id = some s) ∧ ∃ value chosen, Course s value chosen (st'.history s))
    (hregister : ∀ i id value chosen, st'.switch i id = some (value, chosen) →
      ∃ s, st.opening i id = some s ∧ Course s value chosen (st'.history s)) : Journaling st st' := by
  have hlength : st.events.length ≤ st'.events.length := by
    rw [hevents]
    exact hnoted.length_le
  have hsame : ∀ {s}, (∀ ev ∈ about, ev.opening? ≠ some s) → st'.history s = st.history s := by
    intro s hnone
    have hnil : about.filter (fun ev => ev.opening? = some s) = [] :=
      List.filter_eq_nil_iff.2 fun ev hev => by simpa using hnone ev hev
    rw [State.history, hevents, ← State.history, hnoted.history_eq, hnil, List.nil_append]
  refine ⟨⟨?_, ?_, ?_, ?_, ?_⟩, hopenings, ?_, hlength, hactivations.trans hnoted.activations_eq⟩
  · intro ev s hev hs
    rw [hevents] at hev
    refine Nat.lt_of_lt_of_le ?_ hlength
    rcases hnoted.mem_of_mem hev hs with hev | hev
    · obtain ⟨⟨i, id, hopen⟩, _⟩ := habout ev hev s hs
      exact hst.opening_lt hopen
    · exact hst.lt hev hs
  · intro ev s hev hs
    rw [hevents] at hev
    by_cases hnew : ∃ ev ∈ about, ev.opening? = some s
    · obtain ⟨ev', hev', hs'⟩ := hnew
      exact (habout ev' hev' s hs').2
    · rw [hsame fun ev' hev' hs' => hnew ⟨ev', hev', hs'⟩]
      exact hst.course ((hnoted.mem_of_mem hev hs).resolve_left fun hmem => hnew ⟨ev, hmem, hs⟩) hs
  · intro i id value chosen hopen
    rw [hopenings]
    exact hregister i id value chosen hopen
  · intro i id s hs
    rw [hopenings] at hs
    exact Nat.lt_of_lt_of_le (hst.opening_lt hs) hlength
  · intro i j id id' s hs hs'
    rw [hopenings] at hs hs'
    exact hst.distinct hs hs'
  · intro s _ hclosed
    refine hsame fun ev hev hs => ?_
    obtain ⟨⟨i, id, hopen⟩, _⟩ := habout ev hev s hs
    exact hclosed i id hopen

theorem Noted.journalKept (h : Noted [] st st') : JournalKept st st' := by
  intro hst
  refine .of_noted hst h rfl h.opening_eq rfl (fun ev hev => by cases hev) fun i id value chosen hopen => ?_
  rw [h.switch_eq] at hopen
  obtain ⟨s, hs, hcourse⟩ := hst.register hopen
  refine ⟨s, hs, ?_⟩
  rw [h.history_eq]
  exact hcourse

namespace State

theorem lt_of_switch_eq_some {st : State} {i : Nat} {id : Int} {v : Value × Bool} (h : st.switch i id = some v) :
    i < st.activations.length := by
  refine Nat.lt_of_not_le fun hle => ?_
  have hnone : st.activations[i]? = none := List.getElem?_eq_none hle
  simp [switch, List.getD_eq_getElem?_getD, hnone] at h

end State

namespace JournalKept

theorem of_eq {st st' : State} (hactivations : st'.activations = st.activations) (hevents : st'.events = st.events) :
    JournalKept st st' :=
  (Noted.of_eq hactivations hevents).journalKept

theorem textless : Textless JournalKept where
  refl _ := of_eq rfl rfl
  trans := trans
  world _ _ _ := of_eq rfl rfl
  events st _ h := (Noted.elementary.events st h).journalKept
  views _ _ _ _ _ := of_eq rfl rfl
  record _ _ _ := of_eq rfl rfl
  out _ _ := of_eq rfl rfl
  named _ _ := of_eq rfl rfl

theorem cached (frame : Frame) (id : Nat) (v : Option Value) (st : State) :
    JournalKept st (setCached frame id v st) := by
  have hnoted : Noted [] st (setCached frame id v st) :=
    ⟨fun i j => st.switch_setCached frame i j id v, fun i j => st.opening_setCached frame i j id v,
      by simp [setCached, modifyActivation], [], rfl, rfl⟩
  exact hnoted.journalKept

end JournalKept

theorem course_of_isChosen {frame : Frame} {s : Nat} {e : Option Compiled} {r : Except Failure Bool}
    (h : (isChosen frame s value e).run st = some (r, st')) :
    ∃ about, Noted about st st' ∧ (∀ ev ∈ about, ev.opening? = some s) ∧ (∀ t, .chosen t ∉ about) ∧
      ∀ past, Course s value false past →
      (r = .ok true → Course s value true (.chosen s :: (about ++ past))) ∧
      (r ≠ .ok true → Course s value false (about ++ past)) := by
  cases e with
  | none =>
    cases h
    refine ⟨[], Noted.elementary.refl st, by simp, by simp, fun past hpast => ⟨fun _ => .fallback hpast, ?_⟩⟩
    intro hne
    exact absurd rfl hne
  | some e =>
    rw [isChosen, note, run_modify_bind] at h
    have hweighed := Noted.of_event st (.weighed s e)
    rcases run_bind_eq_some h with ⟨v, st₁, heval, hrest⟩ | ⟨f, heval, rfl⟩
    · have hvalue := hweighed.trans (Noted.elementary.evaluate frame trivial _ _ _ heval)
      rw [note, run_modify_bind] at hrest
      have hjudged := hvalue.trans (.of_event st₁ (.judged s v))
      have hagrees := hjudged.trans (Noted.elementary.compositional.agreesWith (U := [])
        (Noted.elementary.compared v value) _ _ _ hrest)
      refine ⟨[.judged s v, .weighed s e], hagrees, by simp [Event.opening?], by simp, fun past hpast => ?_⟩
      -- The answer is whether the value matches.
      have hr : r = .ok true ↔ Matches value v := by
        rw [agreesWith] at hrest
        by_cases hdefault : v.isDefault = true
        · rw [if_pos hdefault] at hrest
          cases hrest
          simp [Matches, hdefault]
        · rw [if_neg hdefault] at hrest
          cases hrest
          simp [Matches, hdefault]
      refine ⟨fun htrue => .rendered hpast (hr.1 htrue), fun hfalse => .passed hpast fun hmatches => ?_⟩
      exact hfalse (hr.2 hmatches)
    · have hvalue := hweighed.trans (Noted.elementary.evaluate frame trivial _ _ _ heval)
      exact ⟨[.weighed s e], hvalue, by simp [Event.opening?], by simp,
        fun past hpast => ⟨nofun, fun _ => .failed hpast⟩⟩

/-- A switch is taken further: its register says so, and no other register has to do with it. -/
theorem Journaling.of_course {st₁ : State} (hst : Journaled st) {i : Nat} {id : Int} {s : Nat}
    {chosen : Bool} {about : List Event} (hopening : st.opening i id = some s) (hnoted : Noted about st st₁)
    (habout : ∀ ev ∈ about, ev.opening? = some s) (hevents : st'.events = st₁.events)
    (hswitch : ∀ j k, st'.switch j k = if j = i ∧ k = id then some (value, chosen) else st.switch j k)
    (hopenings : ∀ j k, st'.opening j k = st.opening j k)
    (hactivations : st'.activations.length = st₁.activations.length)
    (hcourse : Course s value chosen (about ++ st.history s)) : Journaling st st' := by
  have hhistory : ∀ t, st'.history t = about.filter (fun ev => ev.opening? = some t) ++ st.history t := fun t => by
    rw [State.history, hevents, ← State.history, hnoted.history_eq]
  have hsame : Course s value chosen (st'.history s) := by
    rwa [hhistory, List.filter_eq_self.2 fun ev hev => by simpa using habout ev hev]
  refine .of_noted hst hnoted hevents hopenings hactivations (fun ev hev t ht => ?_) fun j k value' chosen' hopen => ?_
  · obtain rfl : s = t := Option.some.inj ((habout ev hev).symm.trans ht)
    exact ⟨⟨i, id, hopening⟩, value, chosen, hsame⟩
  · rw [hswitch] at hopen
    split at hopen
    · next hplace =>
      obtain ⟨rfl, rfl⟩ := hplace
      cases hopen
      exact ⟨s, hopening, hsame⟩
    · next hplace =>
      obtain ⟨t, ht, hcourse'⟩ := hst.register hopen
      refine ⟨t, ht, ?_⟩
      rwa [hhistory, List.filter_eq_nil_iff.2, List.nil_append]
      intro ev hev
      have hne : s ≠ t := by
        rintro rfl
        exact hplace (hst.distinct ht hopening)
      simpa [habout ev hev] using hne

/-! ### Switches and cases -/

/-- A switch is opened: its number is new, and its register has nothing to do with any other. -/
theorem journaled_of_opened (hst : Journaled st) (frame : Frame) (id : Int) (v : Value) :
    Journaled (setRegister frame id (some (v, false)) (some st.events.length)
      { st with events := .opened st.events.length v :: st.events }) := by
  let s := st.events.length
  let st' := setRegister frame id (some (v, false)) (some s) { st with events := .opened s v :: st.events }
  have hevents : st'.events = .opened s v :: st.events := rfl
  have hlength : st'.events.length = s + 1 := rfl
  have hnone : st.history s = [] := by
    refine List.filter_eq_nil_iff.2 fun ev hev => ?_
    simp only [decide_eq_true_eq]
    exact fun hs => Nat.lt_irrefl s (hst.lt hev hs)
  have hnew : st'.history s = [.opened s v] := by
    rw [State.history, hevents, List.filter_cons_of_pos (by simp [Event.opening?])]
    exact congrArg _ hnone
  have hold : ∀ {t}, t < s → st'.history t = st.history t := by
    intro t ht
    rw [State.history, hevents, List.filter_cons_of_neg, State.history]
    simp only [Event.opening?, decide_eq_true_eq, Option.some.injEq]
    omega
  change Journaled st'
  refine ⟨?_, ?_, ?_, ?_, ?_⟩
  · intro ev t hev ht
    rw [hevents, List.mem_cons] at hev
    rcases hev with rfl | hev
    · cases ht
      omega
    · have hlt := hst.lt hev ht
      omega
  · intro ev t hev ht
    rw [hevents, List.mem_cons] at hev
    rcases hev with rfl | hev
    · cases ht
      rw [hnew]
      exact ⟨v, false, .opened⟩
    · rw [hold (hst.lt hev ht)]
      exact hst.course hev ht
  · intro i j value chosen hopen
    rw [State.switch_setRegister] at hopen
    rw [State.opening_setRegister]
    split at hopen
    · next hplace =>
      cases hopen
      refine ⟨s, if_pos hplace, ?_⟩
      rw [hnew]
      exact .opened
    · next hplace =>
      obtain ⟨t, ht, hcourse⟩ := hst.register hopen
      refine ⟨t, (if_neg hplace).trans ht, ?_⟩
      rw [hold (hst.opening_lt ht)]
      exact hcourse
  · intro i j t ht
    rw [State.opening_setRegister] at ht
    split at ht
    · cases ht
      omega
    · have hlt := hst.opening_lt ht
      omega
  · intro i i' j j' t ht ht'
    rw [State.opening_setRegister] at ht ht'
    split at ht
    · next hplace =>
      cases ht
      split at ht'
      · next hplace' => exact ⟨hplace.1.trans hplace'.1.symm, hplace.2.2.trans hplace'.2.2.symm⟩
      · exact absurd (hst.opening_lt ht') (Nat.lt_irrefl s)
    · split at ht'
      · cases ht'
        exact absurd (hst.opening_lt ht) (Nat.lt_irrefl s)
      · exact hst.distinct ht ht'

/-- A switch is closed: its register goes back to the switch that had it before, to which nothing has come meanwhile. -/
theorem Journaling.of_closed (hst : Journaled st) (frame : Frame) (id : Int) (v : Value)
    (h : Journaling (setRegister frame id (some (v, false)) (some st.events.length)
      { st with events := .opened st.events.length v :: st.events }) st') :
    Journaling st (setRegister frame id (st.switch frame.activation id) (st.opening frame.activation id) st') := by
  let s := st.events.length
  let open_ := setRegister frame id (some (v, false)) (some s) { st with events := .opened s v :: st.events }
  let closed := setRegister frame id (st.switch frame.activation id) (st.opening frame.activation id) st'
  have hlength : ∀ v opening (st : State), (setRegister frame id v opening st).activations.length =
      st.activations.length := by
    simp [setRegister, setOpening, setSwitch, modifyActivation]
  have hactivations : st'.activations.length = st.activations.length := h.activations_eq.trans (hlength _ _ _)
  have hhistory : ∀ t, closed.history t = st'.history t := fun _ => rfl
  have hopen_opening : ∀ i j, open_.opening i j =
      if i = frame.activation ∧ i < st.activations.length ∧ j = id then some s else st.opening i j :=
    fun i j => State.opening_setRegister _ frame i j id _ _
  have hopening : ∀ i j, closed.opening i j = st.opening i j := by
    intro i j
    rw [State.opening_setRegister, hactivations, h.opening_eq, hopen_opening]
    split
    · next hplace => rw [hplace.1, hplace.2.2]
    · rfl
  -- What was opened before the switch, and is in no register but the one that was taken, had nothing come to it.
  have hsame : ∀ {t}, t < s → (∀ i j, st.opening i j = some t →
      i = frame.activation ∧ i < st.activations.length ∧ j = id) → closed.history t = st.history t := by
    intro t ht honly
    have hclosed : ∀ i j, open_.opening i j ≠ some t := by
      intro i j hij
      rw [hopen_opening] at hij
      split at hij
      · cases hij
        exact Nat.lt_irrefl _ ht
      · next hplace => exact hplace (honly i j hij)
    have hlt : t < open_.events.length := Nat.lt_succ_of_lt ht
    rw [hhistory, h.history_eq hlt hclosed, State.history]
    change (Event.opened s v :: st.events).filter _ = _
    rw [List.filter_cons_of_neg, State.history]
    simp only [Event.opening?, decide_eq_true_eq, Option.some.injEq]
    omega
  have hle : s + 1 ≤ closed.events.length := h.length_le
  change Journaling st closed
  refine ⟨⟨h.journaled.lt, h.journaled.course, ?_, ?_, ?_⟩, hopening, ?_, by omega, ?_⟩
  · intro i j value chosen hij
    rw [hopening]
    rw [State.switch_setRegister, hactivations] at hij
    split at hij
    · next hplace =>
      obtain ⟨rfl, hlt, rfl⟩ := hplace
      obtain ⟨t, ht, hcourse⟩ := hst.register hij
      refine ⟨t, ht, ?_⟩
      rw [hsame (hst.opening_lt ht)]
      · exact hcourse
      · intro i' j' ht'
        obtain ⟨rfl, rfl⟩ := hst.distinct ht' ht
        exact ⟨rfl, hlt, rfl⟩
    · next hplace =>
      obtain ⟨t, ht, hcourse⟩ := h.journaled.register hij
      rw [h.opening_eq, hopen_opening, if_neg hplace] at ht
      exact ⟨t, ht, hcourse⟩
  · intro i j t ht
    rw [hopening] at ht
    have hlt := hst.opening_lt ht
    omega
  · intro i i' j j' t ht ht'
    rw [hopening] at ht ht'
    exact hst.distinct ht ht'
  · intro t ht hclosed
    exact hsame ht fun i j hij => absurd hij (hclosed i j)
  · rw [hlength, hactivations]

section Bodies

variable {body : Run Unit} (hbody : Keeps JournalKept body)
include hbody

theorem journalKept_renderCase (frame : Frame) (id : Int) (e : Option Compiled) :
    Keeps JournalKept (renderCase frame id e body) := by
  intro st r st' h hst
  rcases run_renderCase_eq_some h with rfl | ⟨value, r₁, st₁, hswitch, hchosen, hrest⟩
  · exact JournalKept.textless.refl _ hst
  · obtain ⟨s, hs, hcourse⟩ := hst.register hswitch
    rw [hs, Option.getD_some] at hchosen hrest
    obtain ⟨about, hnoted, habout, _, hcontinues⟩ := course_of_isChosen hchosen
    rcases hrest with ⟨rfl, hrest⟩ | ⟨hne, rfl⟩
    · have hall := hnoted.trans (.of_event st₁ (.chosen s))
      have hlt : frame.activation < st₁.activations.length := by
        rw [← hnoted.switch_eq] at hswitch
        exact State.lt_of_switch_eq_some hswitch
      refine JournalKept.trans (fun _ => ?_) (hbody _ _ _ hrest) hst
      refine .of_course hst hs hall (List.forall_mem_cons.2 ⟨rfl, habout⟩) rfl (fun j k => ?_) (fun j k => ?_)
        (State.length_setSwitch _ _ _ _) ((hcontinues _ hcourse).1 rfl)
      · rw [State.switch_setSwitch]
        dsimp only
        by_cases hplace : j = frame.activation ∧ k = id
        · rw [if_pos ⟨hplace.1, hplace.1 ▸ hlt, hplace.2⟩, if_pos hplace]
        · rw [if_neg fun hall => hplace ⟨hall.1, hall.2.2⟩, if_neg hplace]
          exact hall.switch_eq j k
      · simpa using hall.opening_eq j k
    · -- Unless the case is rendered, the register stays as it is.
      refine .of_course hst hs hnoted habout rfl (fun j k => ?_) hnoted.opening_eq rfl ((hcontinues _ hcourse).2 hne)
      rw [hnoted.switch_eq]
      split
      · next hplace =>
        obtain ⟨rfl, rfl⟩ := hplace
        exact hswitch
      · rfl

omit hbody in
theorem caseRun_of_renderCase {frame : Frame} {id : Int} {e : Option Compiled} {r : Except Failure Unit}
    (hst : Journaled st) (h : (renderCase frame id e body).run st = some (r, st')) :
    CaseRun body frame id st r st' := by
  rcases run_renderCase_eq_some h with rfl | ⟨value, r₁, st₁, hswitch, hchosen, hrest⟩
  · exact .passed (List.nil_append _).symm (by simp) rfl
  · obtain ⟨s, hs, _⟩ := hst.register hswitch
    rw [hs, Option.getD_some] at hchosen hrest
    have hout := (Wordless.isChosen frame s value e).out_eq hchosen
    obtain ⟨about, hnoted, _, hunchosen, _⟩ := course_of_isChosen hchosen
    obtain ⟨tried, htried, hfilter⟩ := hnoted.events
    have hnone : ∀ t, .chosen t ∉ tried := fun t ht =>
      hunchosen t (hfilter ▸ List.mem_filter.2 ⟨ht, rfl⟩)
    rcases hrest with ⟨rfl, hrest⟩ | ⟨_, rfl⟩
    · refine .rendered hswitch hs ?_ ?_ hnone ?_ hrest
      · rw [← hnoted.switch_eq] at hswitch
        rw [State.switch_setSwitch]
        exact if_pos ⟨rfl, State.lt_of_switch_eq_some hswitch, rfl⟩
      · exact congrArg _ htried
      · exact hout
    · exact .passed htried hnone hout

theorem journalKept_renderSwitch (frame : Frame) (id : Int) (e : Compiled) :
    Keeps JournalKept (renderSwitch frame id e body) := by
  refine JournalKept.textless.bind (JournalKept.textless.evaluateFresh trivial) fun v => ?_
  intro st r st' h hst
  rw [noteOpening, bind_assoc, run_get_bind] at h
  dsimp only at h
  rw [note, bind_assoc, run_modify_bind, pure_bind, run_activation_bind, run_modify_bind] at h
  obtain ⟨st₂, hrun, rfl⟩ := run_restoring_eq_some h
  exact .of_closed hst frame id v (hbody _ _ _ hrun (journaled_of_opened hst frame id v))

end Bodies

/-! ### Calls -/

section Calls

variable {call : Continuation} (hcall : ∀ frame n, Keeps JournalKept (call frame n))
include hcall

theorem journalKept_renderFill (fill : Node Compiled × Frame) : Keeps JournalKept (renderFill call fill) := by
  intro st r st' h
  rw [run_renderFill, Option.map_eq_some_iff] at h
  obtain ⟨⟨r₁, st₁⟩, hrun, hend⟩ := h
  cases hend
  have henter : JournalKept st { st with named := none } := .of_eq rfl rfl
  have hleave : JournalKept st₁ { st₁ with vars := st.vars, named := st.named } := .of_eq rfl rfl
  exact henter.trans ((hcall _ _ _ _ _ hrun).trans hleave)

theorem journalKept_renderBody (program bound : Nat) (body : Node Compiled) (slots : Fills) :
    Keeps JournalKept (renderBody call program bound body slots) := by
  intro st r st' h hst
  rw [run_renderBody, Option.map_eq_some_iff] at h
  obtain ⟨⟨r₁, st₁⟩, hrun, hend⟩ := h
  cases hend
  let st' : State := { st₁ with named := st.named, activations := st₁.activations.take st.activations.length }
  have hstart_opening : ∀ i id, (bodyStart program st).opening i id = st.opening i id := fun i id => by
    rw [State.opening, RegistersKept.getD_bodyStart, State.opening]
  have hstart_switch : ∀ i id, (bodyStart program st).switch i id = st.switch i id := fun i id => by
    rw [State.switch, RegistersKept.getD_bodyStart, State.switch]
  have hkept := hcall _ _ _ _ _ hrun (hst.congr hstart_switch hstart_opening rfl)
  have hopening : ∀ i id, st₁.opening i id = st.opening i id := fun i id => by
    rw [hkept.opening_eq, hstart_opening]
  -- The last activation is dropped; its registers hold nothing, since the opening in a register is kept.
  have hend : ∀ i, st'.activations.getD i {} = if i < st.activations.length then st₁.activations.getD i {} else {} :=
    RegistersKept.getD_take_activations _ _
  have hnone : ∀ i id, ¬ i < st.activations.length → st.opening i id = none := by
    intro i id hi
    rw [State.opening, List.getD_eq_getElem?_getD, List.getElem?_eq_none (Nat.le_of_not_lt hi)]
    rfl
  have hend_opening : ∀ i id, st'.opening i id = st₁.opening i id := by
    intro i id
    by_cases hi : i < st.activations.length
    · rw [State.opening, hend, if_pos hi, State.opening]
    · rw [hopening, hnone i id hi, State.opening, hend, if_neg hi]
      rfl
  have hend_switch : ∀ i id, st'.switch i id = st₁.switch i id := by
    intro i id
    by_cases hi : i < st.activations.length
    · rw [State.switch, hend, if_pos hi, State.switch]
    · cases hswitch : st₁.switch i id with
      | none =>
        rw [State.switch, hend, if_neg hi]
        rfl
      | some v =>
        obtain ⟨s, hs, _⟩ := hkept.journaled.register hswitch
        rw [hopening, hnone i id hi] at hs
        cases hs
  have hlength : st₁.activations.length = st.activations.length + 1 := by
    simpa [bodyStart] using hkept.activations_eq
  refine ⟨hkept.journaled.congr hend_switch hend_opening rfl, fun i id => ?_, fun hlt hclosed => ?_, hkept.length_le, ?_⟩
  · rw [hend_opening, hopening]
  · refine hkept.history_eq hlt fun i id => ?_
    rw [hstart_opening]
    exact hclosed i id
  · simp [hlength]

end Calls

namespace JournalKept

theorem enclosing : Enclosing (keeping JournalKept) where
  toCompositional := textless.compositional
  capture named _ hbody _ := textless.capture (hbody []) named
  name name _ hbody _ := textless.renderName (hbody []) name
  switch frame id e _ _ hbody _ := journalKept_renderSwitch (hbody []) frame id e
  case frame id e _ _ hbody _ := journalKept_renderCase (hbody []) frame id e

theorem pervasive : Pervasive (keeping JournalKept) :=
  textless.toElementary.pervasive (textless.structural enclosing fun _ h h' _ => of_eq h h')
    (fun _ _ => of_eq rfl rfl) (fun _ _ => .modify fun _ => of_eq rfl rfl) cached journalKept_renderFill
    journalKept_renderBody

end JournalKept

end PageTemplate.Render
