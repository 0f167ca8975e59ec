import PageTemplate.Proofs.Building
import PageTemplate.Proofs.ErrorHandler

/-!
Reports of failed renders. A failure is recorded with the site of an expression where it is noticed, and the record has
to survive up to the end of the render, past handlers that drop what their bodies have recorded. The journal tells the
expression to blame: its evaluation was the last thing to happen and failed, or it has given a value that could not be
used. `Reports` says of a part of a run what is to be said of the whole render.
-/

namespace PageTemplate.Render

open Run

variable {e : Compiled} {v : Value} {f : Failure}

/-- An expression has given a value, or an item of it. -/
def Gave (events : List Event) (e : Compiled) (v : Value) : Prop := ∃ event ∈ events, event.Gives e v

/-- An expression is to blame: it has just failed, or its value cannot be used. -/
def Blamed (events : List Event) (e : Compiled) (cause : Failure) : Prop :=
  events.head? = some (.evaluated e (.error cause)) ∨ ∃ v, Gave events e v ∧ Unfit v cause

/-- A located failure is recorded alone, with the expression to blame; nothing else is recorded. -/
inductive Outcome (events : List Event) {α : Type} :
    Except Failure α → List (Site × Option Failure) → Prop where
  | success (a : α) : Outcome events (.ok a) []
  | located {e : Compiled} {cause : Failure} :
      Blamed events e cause → Outcome events (.error (.located e.site cause)) [(e.site, some cause)]
  | other {f : Failure} : f.site? = none → Outcome events (.error f) []

/-- No expression fails at a site, and no definition replaces recorded failures. -/
structure Orderly (events : List Event) (definitions : Assoc Value) : Prop where
  evaluated {e : Compiled} {f : Failure} : .evaluated e (.error f) ∈ events → f.site? = none
  defined {fs : List (Site × Option Failure)} : (Remote.errorKey, .failures fs) ∈ definitions → fs = []

/-- From a state with nothing recorded, an orderly run ends with the right record. Given values come from before. -/
def Reports (U : Given) {α : Type} (st : State) (r : Except Failure α) (st' : State) : Prop :=
  ∃ events definitions, st'.events = events ++ st.events ∧ st'.assigned = definitions ++ st.assigned ∧
    ∀ before, st.remote.errors = [] → (∀ p ∈ U, Gave before p.1 p.2) → Orderly events definitions →
      Outcome (events ++ before) r st'.remote.errors

/-- That a run ends with the right record, as a property of runs. -/
abbrev reporting : Property := fun U _ act => ∀ st r st', act.run st = some (r, st') → Reports U st r st'

theorem Gave.mono {events events' : List Event} (hsub : events ⊆ events') (h : Gave events e v) : Gave events' e v := by
  obtain ⟨event, hmem, hgives⟩ := h
  exact ⟨event, hsub hmem, hgives⟩

theorem Gave.append {before : List Event} (h : Gave before e v) (events : List Event) :
    Gave (events ++ before) e v :=
  h.mono (List.subset_append_right _ _)

namespace Outcome

variable {events : List Event} {α β : Type} {r : Except Failure α} {errors : List (Site × Option Failure)}

theorem fails {f : Failure} (h : Outcome events (.error f : Except Failure α) errors) :
    Outcome events (.error f : Except Failure β) errors := by
  cases h with
  | located hblamed => exact located hblamed
  | other hf => exact other hf

theorem map (h : Outcome events r errors) (g : α → β) : Outcome events (r.map g) errors := by
  cases r with
  | ok a =>
    cases h
    exact success (g a)
  | error f => exact h.fails

theorem errors_eq_nil {a : α} (h : Outcome events (.ok a) errors) : errors = [] := by
  cases h
  rfl

end Outcome

theorem Orderly.append {events events' : List Event} {definitions definitions' : Assoc Value}
    (h : Orderly (events' ++ events) (definitions' ++ definitions)) :
    Orderly events definitions ∧ Orderly events' definitions' :=
  ⟨⟨fun hmem => h.evaluated (List.mem_append_right _ hmem), fun hmem => h.defined (List.mem_append_right _ hmem)⟩,
    fun hmem => h.evaluated (List.mem_append_left _ hmem), fun hmem => h.defined (List.mem_append_left _ hmem)⟩

theorem unlocated_unpack (v : Value) (n : Int) : Unlocated (unpack v n) := by
  have hparts : ∀ vs : List Value, Unlocated (if vs.length = n then .ok vs else .error (.value (utf8 "expected " ++
      Bytes.ofInt n ++ utf8 " values to unpack, got " ++ Bytes.ofNat vs.length))) := by
    intro vs
    split
    · exact .ok vs
    · exact .error rfl
  unfold unpack
  split
  · exact hparts _
  · exact hparts _
  · exact hparts _
  · exact hparts _
  · exact hparts _
  · exact .error rfl

theorem unlocated_iterate (h : Heap) (pairs : Bool) (v : Value) : Unlocated (h.iterate pairs v) := by
  fun_induction Heap.iterate h pairs v with
  | case12 empty ih => exact ih
  | case13 target ih => exact ih
  | case14 => exact .error rfl
  | _ => exact .ok _

theorem unlocated_mapEntries (w : World) (v : Value) : Unlocated (mapEntries w v) := by
  unfold mapEntries
  split
  · exact .ok _
  · split
    · exact .error rfl
    · exact .error rfl
    · exact .ok _

theorem Unfit.site?_eq_none (h : Unfit v f) : f.site? = none := by
  cases h with
  | parts hf => exact unlocated_unpack _ _ f hf
  | source hf => exact unlocated_iterate _ _ _ f hf
  | attributes hf => exact unlocated_mapEntries _ _ f hf
  | callee _ => rfl

/-- Nothing has happened that a report depends on. -/
structure Quiet (st st' : State) : Prop where
  events_eq : st'.events = st.events
  assigned_eq : st'.assigned = st.assigned
  errors_eq : st'.remote.errors = st.remote.errors

namespace Reports

variable {U : Given} {α β : Type} {st st₁ st₂ st' : State} {r : Except Failure α} {r' : Except Failure β}
variable {f : Failure}

theorem success (a : α) (h : Quiet st st') : Reports U st (.ok a) st' := by
  refine ⟨[], [], h.events_eq, h.assigned_eq, fun _ hempty _ _ => ?_⟩
  rw [h.errors_eq, hempty]
  exact .success a

theorem unlocated (hf : f.site? = none) : Reports U st (.error f : Except Failure α) st :=
  ⟨[], [], rfl, rfl, fun _ hempty _ _ => hempty ▸ .other hf⟩

theorem fails (h : Reports U st (.error f : Except Failure α) st') :
    Reports U st (.error f : Except Failure β) st' := by
  obtain ⟨events, definitions, hevents, hassigned, houtcome⟩ := h
  exact ⟨events, definitions, hevents, hassigned, fun before hempty hU ho => (houtcome before hempty hU ho).fails⟩

theorem map (h : Reports U st r st') (g : α → β) : Reports U st (r.map g) st' := by
  obtain ⟨events, definitions, hevents, hassigned, houtcome⟩ := h
  exact ⟨events, definitions, hevents, hassigned, fun before hempty hU ho => (houtcome before hempty hU ho).map g⟩

theorem append (h : Reports U st r st₁) (hevents : st₂.events = st₁.events) (hassigned : st₂.assigned = st₁.assigned)
    (herrors : ∀ events, st.remote.errors = [] → Outcome events r st₁.remote.errors → st₂.remote.errors = [])
    (h' : Reports U st₂ r' st') : Reports U st r' st' := by
  obtain ⟨events, definitions, hevents₁, hassigned₁, houtcome⟩ := h
  obtain ⟨events', definitions', hevents', hassigned', houtcome'⟩ := h'
  refine ⟨events' ++ events, definitions' ++ definitions, ?_, ?_, fun before hempty hU ho => ?_⟩
  · rw [hevents', hevents, hevents₁, List.append_assoc]
  · rw [hassigned', hassigned, hassigned₁, List.append_assoc]
  · obtain ⟨hfirst, hsecond⟩ := ho.append
    have hbetween := herrors _ hempty (houtcome before hempty hU hfirst)
    rw [List.append_assoc]
    exact houtcome' (events ++ before) hbetween (fun p hp => (hU p hp).append events) hsecond

theorem trans {a : α} (h : Reports U st (.ok a) st₁) (h' : Reports U st₁ r' st') : Reports U st r' st' :=
  h.append rfl rfl (fun _ _ houtcome => houtcome.errors_eq_nil) h'

/-- A handler drops what its body has recorded, whatever it was. -/
theorem handled (h : Reports U st r st₁) (h' : Reports U (handlerStart st st₁) r' st') : Reports U st r' st' := by
  have hevents : (handlerStart st st₁).events = st₁.events := rfl
  refine h.append hevents rfl (fun _ hempty _ => ?_) h'
  simp [handlerStart, hempty]

theorem after (hquiet : Quiet st st₁) (h : Reports U st₁ r st') : Reports U st r st' :=
  (success () hquiet).trans h

theorem before (h : Reports U st r st₁) (hquiet : Quiet st₁ st') : Reports U st r st' := by
  obtain ⟨events, definitions, hevents, hassigned, houtcome⟩ := h
  refine ⟨events, definitions, hquiet.events_eq ▸ hevents, hquiet.assigned_eq ▸ hassigned, ?_⟩
  rw [hquiet.errors_eq]
  exact houtcome

theorem given {e : Compiled} {v : Value} {event : Event} (h : Reports ((e, v) :: U) st₁ r st')
    (hgives : event.Gives e v) (hevents : st₁.events = event :: st.events)
    (hassigned : st₁.assigned = st.assigned) (herrors : st₁.remote.errors = st.remote.errors) :
    Reports U st r st' := by
  obtain ⟨events, definitions, hevents', hassigned', houtcome⟩ := h
  refine ⟨events ++ [event], definitions, ?_, hassigned ▸ hassigned', fun before hempty hU ho => ?_⟩
  · rw [hevents', hevents, List.append_assoc, List.singleton_append]
  · rw [List.append_assoc]
    refine houtcome ([event] ++ before) (herrors.trans hempty) ?_ ?_
    · have hgave : Gave ([event] ++ before) e v := ⟨event, List.mem_cons_self, hgives⟩
      exact List.forall_mem_cons.2 ⟨hgave, fun p hp => (hU p hp).append [event]⟩
    · exact ⟨fun hmem => ho.evaluated (List.mem_append_left _ hmem), ho.defined⟩

end Reports

theorem run_failAt {α : Type} (e : Compiled) (hf : f.site? = none) (st : State) :
    (failAt e f : Run α).run st =
      some (.error (.located e.site f), { st with remote := st.remote.record e.site (some f) }) := by
  simp only [failAt, hf, Option.isSome_none, Bool.false_eq_true, if_false]
  rfl

theorem run_failAt_located {α : Type} (e : Compiled) (hf : f.site? ≠ none) (st : State) :
    (failAt e f : Run α).run st = some (.error f, st) := by
  simp only [failAt, Option.isSome_iff_ne_none.2 hf, if_true]
  rfl

theorem run_evaluateFresh_eq_some {frame : Frame} {r : Except Failure Value} {st st' : State}
    (h : (evaluateFresh frame e).run st = some (r, st')) :
    (∃ v w, r = .ok v ∧ st' = { st with
      world := w
      events := .evaluated e (.ok v) :: st.events
      views := ⟨frame, e, st.vars, st.assigned, st.world⟩ :: st.views }) ∨
      ∃ f, r = .error f ∧ ∀ U, Reports U st r st' := by
  rw [run_evaluateFresh] at h
  generalize (e.evaluator.eval st.vars).run st.world = p at h
  obtain ⟨r₁, w⟩ := p
  cases r₁ with
  | ok v =>
    cases h
    exact .inl ⟨v, w, rfl, rfl⟩
  | error cause =>
    right
    dsimp only at h
    by_cases hsite : cause.site? = none
    · rw [run_failAt e hsite] at h
      cases h
      refine ⟨_, rfl, fun U => ⟨[.evaluated e (.error cause)], [], rfl, rfl, fun before hempty _ _ => ?_⟩⟩
      simp only [Remote.errors_record, hempty, List.nil_append]
      exact .located (.inl rfl)
    · rw [run_failAt_located e hsite] at h
      cases h
      refine ⟨_, rfl, fun U => ⟨[.evaluated e (.error cause)], [], rfl, rfl, fun _ _ _ ho => ?_⟩⟩
      exact absurd (ho.evaluated List.mem_cons_self) hsite

theorem reports_evaluateFresh (frame : Frame) (e : Compiled) {U : Given} : reporting U Value (evaluateFresh frame e) := by
  intro st r st' h
  rcases run_evaluateFresh_eq_some h with ⟨v, w, rfl, rfl⟩ | ⟨_, _, hreports⟩
  · exact (Reports.success v ⟨rfl, rfl, rfl⟩).given .evaluated rfl rfl rfl
  · exact hreports U

theorem compositional_reporting : Compositional reporting where
  pure a st r st' h := by
    cases h
    exact .success a ⟨rfl, rfl, rfl⟩
  bind hx hf st r st' h := by
    rcases run_bind_eq_some h with ⟨a, st₁, hfirst, hrest⟩ | ⟨f, hfirst, rfl⟩
    · exact (hx _ _ _ hfirst).trans (hf a _ _ _ hrest)
    · exact (hx _ _ _ hfirst).fails
  look hf _ st r st' h := hf st _ _ _ h
  write s st r st' h := by
    cases h
    exact .success () ⟨rfl, rfl, rfl⟩
  evaluated _ hf st r st' h := by
    rcases run_bind_eq_some h with ⟨v, st₁, heval, hrest⟩ | ⟨f, heval, rfl⟩
    · rcases run_evaluateFresh_eq_some heval with ⟨v, w, hv, rfl⟩ | ⟨_, hv, _⟩
      · cases hv
        exact (hf v _ _ _ hrest).given .evaluated rfl rfl rfl
      · cases hv
    · exact (reports_evaluateFresh _ _ _ _ _ heval).fails
  noted hgives hact st r st' h := (hact _ _ _ h).given hgives rfl rfl rfl
  misused {U _ e v f} hgiven hunfit st r st' h := by
    rw [run_failAt e hunfit.site?_eq_none] at h
    cases h
    refine ⟨[], [], rfl, rfl, fun before hempty hU _ => ?_⟩
    simp only [Remote.errors_record, hempty, List.nil_append]
    exact .located (.inr ⟨v, hU _ hgiven, hunfit⟩)
  translate frame msgid mapping fallback st r st' h := by
    have hlanguage : ∃ language, (targetLanguage frame).run st = some (.ok language, st) := by
      rw [targetLanguage, run_get_bind]
      split
      · exact ⟨_, rfl⟩
      · exact ⟨_, rfl⟩
    obtain ⟨language, hlanguage⟩ := hlanguage
    rw [Render.translate, run_bind, hlanguage] at h
    cases h
    refine ⟨[_], [], rfl, rfl, fun before hempty _ _ => ?_⟩
    rw [hempty]
    exact .success _

/-! ### Bodies -/

namespace Reporting

variable {U : Given} {α β : Type}
variable {body : Run Unit}
variable (frame : Frame)

theorem restoring {restore : State → State} {x : Run α} (hx : reporting U α x)
    (hrestore : ∀ st, Quiet st (restore st)) : reporting U α (Run.restoring restore x) := by
  intro st r st' h
  obtain ⟨st₁, hrun, rfl⟩ := run_restoring_eq_some h
  exact (hx _ _ _ hrun).before (hrestore st₁)

theorem modified {g : State → State} (hg : ∀ st, Quiet st (g st)) : reporting U Unit (modify g) := by
  intro st r st' h
  cases h
  exact .success () (hg st)

theorem loopTable : reporting U Nat loopTable := by
  intro st r st' h
  rw [Render.loopTable, run_get_bind] at h
  split at h
  · cases h
    exact .success _ ⟨rfl, rfl, rfl⟩
  · cases h
    exact .success _ ⟨rfl, rfl, rfl⟩

theorem binding (name : Bytes) (v : Value) (hbody : Always reporting body) :
    Always reporting (binding name v body) := by
  intro U st r st' h
  rw [run_binding, Option.map_eq_some_iff] at h
  obtain ⟨⟨r₁, st₁⟩, hrun, hend⟩ := h
  cases hend
  exact ((hbody U _ _ _ hrun).after ⟨rfl, rfl, rfl⟩).before ⟨rfl, rfl, rfl⟩

theorem capture (named : Option (Assoc Bytes)) (hbody : Always reporting body) :
    Always reporting (capture named body) := by
  intro U st r st' h
  rw [run_capture, Option.map_eq_some_iff] at h
  obtain ⟨⟨r₁, st₁⟩, hrun, hend⟩ := h
  cases hend
  exact (((hbody U _ _ _ hrun).after ⟨rfl, rfl, rfl⟩).before ⟨rfl, rfl, rfl⟩).map _

theorem renderOnError {fallback : Run Unit} (hbody : Always reporting body) (hfallback : Always reporting fallback) :
    Always reporting (renderOnError body fallback) := by
  intro U st r st' h
  rw [run_renderOnError, Option.bind_eq_some_iff] at h
  obtain ⟨⟨rb, sb⟩, hrun, hrest⟩ := h
  have hreports := hbody U _ _ _ hrun
  cases rb with
  | ok u =>
    cases hrest
    exact hreports
  | error f => exact hreports.handled (binding _ _ hfallback U _ _ _ hrest)

theorem setGlobal (name : Bytes) (v : Value) : Always reporting (setGlobal name v) := by
  intro U st r st' h
  cases h
  refine ⟨[], [(name, v)], rfl, rfl, fun before hempty _ ho => ?_⟩
  have herrors : Remote.errors (st.remote.insert name v) = [] := by
    by_cases hname : name = Remote.errorKey
    · subst hname
      rw [Remote.errors, Assoc.get?_insert, if_pos rfl]
      cases v with
      | failures fs => exact ho.defined List.mem_cons_self
      | _ => rfl
    · rw [Remote.errors_insert_of_ne _ hname, hempty]
  rw [herrors]
  exact .success ()

theorem cacheValues (es : List Compiled) (st st' : State) (r : Except Failure (List (Option Value) × Option Failure))
    (h : (cacheValues frame es).run st = some (r, st')) :
    ∃ previous failed, r = .ok (previous, failed) ∧
      Reports U st (failed.elim (.ok ()) .error : Except Failure Unit) st' := by
  induction es generalizing st st' r with
  | nil =>
    cases h
    exact ⟨[], none, rfl, .success () ⟨rfl, rfl, rfl⟩⟩
  | cons e es ih =>
    rcases run_bind_eq_some h with ⟨r₁, st₁, hattempt, hrest⟩ | ⟨f, hattempt, _⟩
    · obtain ⟨r₂, heval, hr⟩ := run_attempt_eq_some hattempt
      cases hr
      cases r₁ with
      | error f =>
        cases hrest
        exact ⟨_, some f, rfl, (reports_evaluateFresh frame e _ _ _ heval).fails⟩
      | ok v =>
        have hvalue := reports_evaluateFresh (U := U) frame e _ _ _ heval
        change (activation frame >>= _).run st₁ = _ at hrest
        rw [run_activation_bind, run_modify_bind] at hrest
        rcases run_bind_eq_some hrest with ⟨p, st₂, hvalues, hpure⟩ | ⟨f, hvalues, _⟩
        · obtain ⟨previous, failed, hp, hreports⟩ := ih _ _ _ hvalues
          cases hp
          cases hpure
          exact ⟨_, failed, rfl, hvalue.trans (hreports.after ⟨rfl, rfl, rfl⟩)⟩
        · obtain ⟨_, _, hp, _⟩ := ih _ _ _ hvalues
          cases hp
    · obtain ⟨_, _, hr⟩ := run_attempt_eq_some hattempt
      cases hr

theorem quiet_forget (ps : List (Compiled × Option Value)) (st : State) :
    Quiet st (ps.foldl (fun st p => setCached frame p.1.id p.2 st) st) := by
  induction ps generalizing st with
  | nil => exact ⟨rfl, rfl, rfl⟩
  | cons p ps ih => exact ⟨(ih _).events_eq, (ih _).assigned_eq, (ih _).errors_eq⟩

theorem renderCache (exprs : List Compiled) (hbody : Always reporting body) :
    Always reporting (renderCache frame exprs body) := by
  intro U st r st' h
  rcases run_bind_eq_some h with ⟨p, st₁, hvalues, hrest⟩ | ⟨f, hvalues, _⟩
  · obtain ⟨previous, failed, hp, hreports⟩ := cacheValues (U := U) frame exprs _ _ _ hvalues
    cases hp
    obtain ⟨st₂, hrun, rfl⟩ := run_restoring_eq_some hrest
    refine Reports.before ?_ (quiet_forget frame _ st₂)
    cases failed with
    | none => exact hreports.trans (hbody U _ _ _ hrun)
    | some f =>
      cases hrun
      exact hreports
  · obtain ⟨_, _, hp, _⟩ := cacheValues (U := U) frame exprs _ _ _ hvalues
    cases hp

theorem renderName (name : Bytes) (hbody : Always reporting body) :
    Always reporting (renderName name body) := by
  intro U st r st' h
  rw [Render.renderName, run_get_bind] at h
  split at h
  · exact hbody U _ _ _ h
  · refine compositional_reporting.bind (capture none hbody U) (fun _ => ?_) _ _ _ h
    exact compositional_reporting.bind (modified fun _ => ⟨rfl, rfl, rfl⟩) fun _ => compositional_reporting.write _

theorem note (event : Event) : reporting U Unit (note event) := by
  intro st r st' h
  cases h
  refine ⟨[event], [], rfl, rfl, fun before hempty _ _ => ?_⟩
  rw [hempty]
  exact .success ()

theorem switching : Switching reporting where
  toCompositional := compositional_reporting
  note := note
  compared _ _ := modified fun _ => ⟨rfl, rfl, rfl⟩
  switch _ _ _ := modified fun _ => ⟨rfl, rfl, rfl⟩
  register _ _ _ _ := modified fun _ => ⟨rfl, rfl, rfl⟩
  restoringRegister _ _ _ _ _ hbody := restoring hbody fun _ => ⟨rfl, rfl, rfl⟩

theorem cooked {U : Given} (id : Nat) {f : World → Nat → Run Unit}
    (hf : ∀ w program, reporting U Unit (f w program)) :
    reporting U Unit (do
      let st ← get
      let (r, world) := st.world.cook id
      set { st with world }
      let program ← liftExcept r
      f world program) := by
  intro st r st' h
  rw [run_get_bind] at h
  have hunlocated := st.world.unlocated_cook id
  generalize st.world.cook id = p at h hunlocated
  obtain ⟨cooked, w⟩ := p
  dsimp only at h
  rw [run_set_bind, run_bind, run_liftExcept] at h
  cases cooked with
  | ok program => exact (hf w program _ _ _ h).after ⟨rfl, rfl, rfl⟩
  | error f =>
    cases h
    exact (Reports.unlocated (hunlocated f rfl)).after ⟨rfl, rfl, rfl⟩

end Reporting

theorem looping_reporting : Looping reporting where
  toCompositional := compositional_reporting
  advance loop U st r st' h := by
    cases h
    exact .success _ ⟨rfl, rfl, rfl⟩
  heap f := Reporting.modified fun _ => ⟨rfl, rfl, rfl⟩
  loopTable := Reporting.loopTable
  restoringHeap f _ hbody := Reporting.restoring hbody fun _ => ⟨rfl, rfl, rfl⟩

theorem pervasive_reporting : Pervasive reporting where
  toCompositional := compositional_reporting
  binding name v _ := Reporting.binding name v
  loop frame names _ whitespace _ he hbody :=
    looping_reporting.renderLoop frame he whitespace fun values =>
      always_bindingAll (names.zip values) (fun b _ _ => Reporting.binding b.1 b.2) hbody
  cache frame exprs _ _ := Reporting.renderCache frame exprs
  capture named _ := Reporting.capture named
  name name _ := Reporting.renderName name
  onError := Reporting.renderOnError
  switch frame id _ _ he hbody := Reporting.switching.renderSwitch hbody frame id he
  case frame id _ _ he hbody := Reporting.switching.renderCase hbody frame id he
  exceeded U st r st' h := by cases h
  missing name message st r st' h := by
    cases h
    exact .unlocated rfl
  global := Reporting.setGlobal
  fill {call} hcall fill U st r st' h := by
    rw [run_renderFill, Option.map_eq_some_iff] at h
    obtain ⟨⟨r₁, st₁⟩, hrun, hend⟩ := h
    cases hend
    exact ((hcall _ _ U _ _ _ hrun).after ⟨rfl, rfl, rfl⟩).before ⟨rfl, rfl, rfl⟩
  body {call} hcall program bound body slots U st r st' h := by
    rw [run_renderBody, Option.map_eq_some_iff] at h
    obtain ⟨⟨r₁, st₁⟩, hrun, hend⟩ := h
    cases hend
    exact ((hcall _ _ U _ _ _ hrun).after ⟨rfl, rfl, rfl⟩).before ⟨rfl, rfl, rfl⟩
  cooked := Reporting.cooked
  merging hbody U :=
    compositional_reporting.look (fun st => Reporting.restoring (hbody U) fun _ => ⟨rfl, rfl, rfl⟩) fun _ _ _ => rfl

theorem reports_renderEntry (depth program bound : Nat) (name : Bytes) (builtins : Assoc Value) {U : Given} :
    reporting U Unit (renderEntry (toDepth depth) program bound name builtins) := by
  have hbody := pervasive_reporting.body (fun frame n => pervasive_reporting.toDepth depth frame n) program bound
  refine compositional_reporting.bind (Reporting.modified fun st => ⟨rfl, rfl, ?_⟩) fun _ => ?_
  · dsimp only
    split
    · rfl
    · exact Remote.errors_insert_of_ne _ (by decide) _
  · refine compositional_reporting.bind (fun st r st' h => ?_) fun _ => ?_
    · cases h
      exact .success () ⟨rfl, rfl, rfl⟩
    · refine compositional_reporting.look (fun st => ?_) fun _ _ _ => rfl
      dsimp only
      split
      · exact hbody _ _ U
      · split
        · exact hbody _ _ U
        · exact pervasive_reporting.missing _ _

/-- A render that starts with nothing recorded ends so, unless it fails at the site of an expression. Then the failure
is recorded once, with that site, and the expression has just failed or given a value that could not be used. -/
theorem report_names_expression (depth program bound : Nat) (name : Bytes) (builtins : Assoc Value)
    (st st' : State) (r : Except Failure Unit) (hempty : st.remote.errors = [])
    (hrun : (renderEntry (toDepth depth) program bound name builtins).run st = some (r, st')) :
    ∃ events definitions, st'.events = events ++ st.events ∧ st'.assigned = definitions ++ st.assigned ∧
      (Orderly events definitions → Outcome events r st'.remote.errors) := by
  obtain ⟨events, definitions, hevents, hassigned, houtcome⟩ :=
    reports_renderEntry depth program bound name builtins (U := []) _ _ _ hrun
  refine ⟨events, definitions, hevents, hassigned, fun ho => ?_⟩
  simpa using houtcome [] hempty (by simp) ho

def Event.isUnlocated : Event → Bool
  | .evaluated _ (.error f) => f.site?.isNone
  | _ => true

theorem report_names_expression_after_handler :
    let first : Compiled := ⟨0, .path (utf8 "first") [], { expression := utf8 "first" }⟩
    let second : Compiled := ⟨1, .path (utf8 "second") [], { expression := utf8 "second" }⟩
    let main : Node Compiled := .sequence
      [.onError (.content first false false) .omitted, .content second false false]
    let st : State := { world := { programs := [{ (default : Program) with main }] } }
    ∃ e cause st' events, st.remote.errors = [] ∧
      (renderEntry (toDepth 1) 0 0 [] []).run st = some (.error (.located e.site cause), st') ∧
      Orderly events [] ∧ Blamed events e cause ∧ st'.remote.errors = [(e.site, some cause)] ∧
      e.site.expression = utf8 "second" := by
  intro first second main st
  have hends : ((renderEntry (toDepth 1) 0 0 [] []).run st).any (fun p => p.2.assigned.isEmpty &&
      p.2.events.all Event.isUnlocated && p.2.remote.errors.map (·.1.expression) = [utf8 "second"]) = true := by
    decide +kernel
  obtain ⟨⟨r, st'⟩, hrun, hend⟩ := (Option.any_eq_true _ _).1 hends
  simp only [Bool.and_eq_true, List.isEmpty_iff, List.all_eq_true, decide_eq_true_eq] at hend
  obtain ⟨⟨hassigned, hlocated⟩, hrecorded⟩ := hend
  obtain ⟨events, definitions, hevents, hdefinitions, houtcome⟩ :=
    report_names_expression 1 0 0 [] [] st st' r rfl hrun
  obtain rfl : definitions = [] := (List.append_eq_nil_iff.1 (hdefinitions.symm.trans hassigned)).1
  have horderly : Orderly events [] := by
    refine ⟨fun {e f} hmem => ?_, by simp⟩
    have hmem' : .evaluated e (.error f) ∈ st'.events := hevents ▸ List.mem_append_left _ hmem
    simpa [Event.isUnlocated] using hlocated _ hmem'
  have hrecord := houtcome horderly
  generalize herrors : st'.remote.errors = errors at hrecord hrecorded
  cases hrecord with
  | success _ => simp at hrecorded
  | other _ => simp at hrecorded
  | @located e cause hblamed =>
    exact ⟨e, cause, st', events, rfl, hrun, horderly, hblamed, herrors, by simpa using hrecorded⟩

/-- A list of failures that a template defines itself is taken for what was recorded, also after a render that succeeds.
And a dollar between braces is reported where the interpolation begins, two columns before it. -/
theorem report_misled :
    let r := Expression.Registry.initial (utf8 "expr") []
    let source := utf8 "$\x7b$\x7d"
    let given : Compiled := ⟨0, .path (utf8 "given") [], default⟩
    let main : Node Compiled := .define [{ names := [Remote.errorKey], expr := given, isGlobal := true }] .omitted
    let earlier : Value := .failures [({ expression := utf8 "earlier" }, none)]
    let outcome (p : Program) (vars : Vars) :=
      ((renderEntry (toDepth 1) 0 0 [] []).run { world := { programs := [p] }, vars }).map fun p =>
        (p.1.toOption.isSome, p.2.events.all Event.isUnlocated, p.2.remote.errors.map (·.1))
    outcome { (default : Program) with main } [(utf8 "given", earlier)] =
      some (true, true, [{ expression := utf8 "earlier" }]) ∧
    ∃ tree m p, Markup.parse source [] = .ok tree ∧ Builder.build r [] source tree = .ok m ∧ m.compile r 0 = .ok p ∧
      outcome p [] = some (false, true, [{ expression := utf8 "$", line := 1, column := 1, source, offset := 0 }]) ∧
      source.drop 2 = utf8 "$\x7d" ∧ lineColumn source 2 = (1, 3) := by
  intro r source given main earlier outcome
  refine ⟨by decide +kernel, ?_⟩
  obtain ⟨tree, m, hparse, hbuild, houtcome⟩ := exists_module_of_toOption r source
    (fun m => (m.compile r 0).toOption.bind fun p => outcome p [])
    (a := some (false, true, [{ expression := utf8 "$", line := 1, column := 1, source, offset := 0 }]))
    (by decide +kernel)
  obtain ⟨p, hcompile, houtcome⟩ := Option.bind_eq_some_iff.1 houtcome
  exact ⟨tree, m, p, hparse, hbuild, eq_ok_of_toOption hcompile, houtcome, by decide, by decide⟩

end PageTemplate.Render
