import PageTemplate.Proofs.AppendOnly
import PageTemplate.Proofs.LocalBindings

/-!
Handlers of failures. When the body of a handler fails, the output and the recorded failures are cut back to marks taken
before it. That these are the right marks takes that the body can only have added to either. For the output this holds
without exception; for recorded failures, which are kept under a reserved name, it holds as long as no definition
replaces the list, which `ErrorsGrow` says. The main statement says what the fallback finds.
-/

namespace PageTemplate

variable {name : Bytes}

namespace Remote

@[simp] theorem errors_insert_failures (r : Remote) (fs : List (Site × Option Failure)) :
    Remote.errors (r.insert errorKey (.failures fs)) = fs := by
  simp [errors]

@[simp] theorem errors_insert_of_ne (r : Remote) (hname : name ≠ errorKey) (v : Value) :
    Remote.errors (r.insert name v) = r.errors := by
  simp [errors, Ne.symm hname]

@[simp] theorem errors_record (r : Remote) (site : Site) (cause : Option Failure) :
    (r.record site cause).errors = r.errors ++ [(site, cause)] :=
  errors_insert_failures r _

@[simp] theorem errors_truncateErrors (r : Remote) (n : Nat) : (r.truncateErrors n).errors = r.errors.take n := by
  unfold truncateErrors
  split
  · exact errors_insert_failures r _
  · next hle => rw [List.take_of_length_le (Nat.le_of_not_lt hle)]

end Remote

namespace Render

open Run

/-- Failures were recorded after those before, unless a definition of the reserved name replaced the list. -/
def ErrorsGrow (st st' : State) : Prop :=
  ∃ definitions : Assoc Value, st'.assigned = definitions ++ st.assigned ∧
    ((∀ v, (Remote.errorKey, v) ∉ definitions) →
      ∃ recorded, st'.remote.errors = st.remote.errors ++ recorded)

namespace ErrorsGrow

theorem of_remote_eq {st st' : State} (hremote : st'.remote = st.remote)
    (hassigned : st'.assigned = st.assigned) : ErrorsGrow st st' :=
  ⟨[], hassigned, fun _ => ⟨[], by rw [hremote, List.append_nil]⟩⟩

theorem trans {st₁ st₂ st₃ : State} (h : ErrorsGrow st₁ st₂) (h' : ErrorsGrow st₂ st₃) : ErrorsGrow st₁ st₃ := by
  obtain ⟨ds, hassigned, hgrow⟩ := h
  obtain ⟨ds', hassigned', hgrow'⟩ := h'
  refine ⟨ds' ++ ds, by rw [hassigned', hassigned, List.append_assoc], fun hnone => ?_⟩
  obtain ⟨recorded, hrecorded⟩ := hgrow fun v hv => hnone v (List.mem_append_right _ hv)
  obtain ⟨recorded', hrecorded'⟩ := hgrow' fun v hv => hnone v (List.mem_append_left _ hv)
  exact ⟨recorded ++ recorded', by rw [hrecorded', hrecorded, List.append_assoc]⟩

theorem detached : Detached ErrorsGrow where
  trans := trans
  world _ _ _ := of_remote_eq rfl rfl
  views _ _ _ _ _ := of_remote_eq rfl rfl
  noted _ _ := of_remote_eq rfl rfl
  out _ _ := of_remote_eq rfl rfl
  named _ _ := of_remote_eq rfl rfl
  activations _ _ := of_remote_eq rfl rfl
  record _ site cause := ⟨[], rfl, fun _ => ⟨[(site, cause)], Remote.errors_record _ _ _⟩⟩

theorem vars (st : State) (vs : Vars) : ErrorsGrow st { st with vars := vs } := of_remote_eq rfl rfl

theorem setGlobal (name : Bytes) (v : Value) : Keeps ErrorsGrow (setGlobal name v) := by
  refine .modify fun st => ⟨[(name, v)], rfl, fun hnone => ⟨[], ?_⟩⟩
  have hname : name ≠ Remote.errorKey := by
    rintro rfl
    exact hnone v List.mem_cons_self
  rw [Remote.errors_insert_of_ne _ hname, List.append_nil]

theorem handlerStart {st st₁ : State} (h : ErrorsGrow st st₁) : ErrorsGrow st (handlerStart st st₁) := by
  obtain ⟨ds, hassigned, hgrow⟩ := h
  refine ⟨ds, hassigned, fun hnone => ⟨[], ?_⟩⟩
  obtain ⟨recorded, hrecorded⟩ := hgrow hnone
  simp only [Render.handlerStart]
  rw [Remote.errors_truncateErrors, hrecorded, List.take_left, List.append_nil]

theorem renderOnError {body fallback : Run Unit} (hbody : Keeps ErrorsGrow body)
    (hfallback : Keeps ErrorsGrow fallback) : Keeps ErrorsGrow (renderOnError body fallback) := by
  intro st r st' h
  rw [run_renderOnError, Option.bind_eq_some_iff] at h
  obtain ⟨⟨rb, sb⟩, hrun, hrest⟩ := h
  have hgrow := hbody _ _ _ hrun
  cases rb with
  | ok u =>
    cases hrest
    exact hgrow
  | error f => exact hgrow.handlerStart.trans (detached.binding vars _ _ hfallback _ _ _ hrest)

/-- Whatever is rendered only adds to the recorded failures. -/
theorem outlasting : Outlasting ErrorsGrow where
  toDetached := detached
  vars := vars
  global := setGlobal
  loop frame names _ whitespace _ hbody :=
    (detached.looping (fun _ _ => of_remote_eq rfl rfl)
      (detached.loopTable vars fun _ _ => of_remote_eq rfl rfl)).renderLoop frame trivial whitespace
        (fun values => always_bindingAll (names.zip values)
          (fun b _ _ hbody _ => detached.binding vars b.1 b.2 (hbody [])) fun _ => hbody) []
  onError := renderOnError

end ErrorsGrow

/-! ### What the fallback finds -/

/-- The name under which the fallback finds the failure. -/
def failureName : Bytes := utf8 "error"

theorem exists_fallback {body fallback : Run Unit} {st st' sb : State} {r : Except Failure Unit} {f : Failure}
    (hbody : body.run st = some (.error f, sb)) (hrun : (renderOnError body fallback).run st = some (r, st')) :
    ∃ stop, fallback.run { handlerStart st sb with
          vars := sb.vars.insert failureName (.failure (unlocated f)) } = some (r, stop) ∧
      st' = { stop with vars := stop.vars.set? failureName (sb.vars.get? failureName) } := by
  rw [run_renderOnError, hbody] at hrun
  change (binding _ _ fallback).run _ = _ at hrun
  rw [run_binding, Option.map_eq_some_iff] at hrun
  obtain ⟨⟨r₁, stop⟩, hfallback, hend⟩ := hrun
  cases hend
  exact ⟨stop, hfallback, rfl⟩

/-- The output is cut back to what it was, whatever the body has written. -/
theorem out_handlerStart {body : Run Unit} (htransparent : Transparent body) {st sb : State}
    {rb : Except Failure Unit} (hbody : body.run st = some (rb, sb)) : (handlerStart st sb).out = st.out := by
  obtain ⟨written, _, hout, _⟩ := htransparent.exists_ending hbody
  simp only [handlerStart, hout, Output.truncate_followedBy]

theorem LocalsKept.get?_eq {st st' : State} (h : LocalsKept st st')
    (hloops : name = Expression.loopsName → ∃ id, st.vars.get? name = some (.loops id)) :
    st'.vars.get? name = st.vars.get? name := by
  by_cases hname : name = Expression.loopsName
  · subst hname
    obtain ⟨id, hid⟩ := hloops rfl
    rw [hid, h.loops id hid]
  · exact h.other name hname

/-- The recorded failures are cut back to what they were, unless the body has replaced them. -/
theorem errors_handlerStart {st sb : State} {definitions : Assoc Value}
    (hgrow : (∀ v, (Remote.errorKey, v) ∉ definitions) →
      ∃ recorded, sb.remote.errors = st.remote.errors ++ recorded)
    (h : st.remote.errors = [] ∨ ∀ v, (Remote.errorKey, v) ∉ definitions) :
    (handlerStart st sb).remote.errors = st.remote.errors := by
  simp only [handlerStart, Remote.errors_truncateErrors]
  rcases h with hempty | hnone
  · simp [hempty]
  · obtain ⟨recorded, hrecorded⟩ := hgrow hnone
    rw [hrecorded, List.take_left]

theorem exists_definitions_of_fallback {st sb stop : State} {vars : Vars} (hbody : ErrorsGrow st sb)
    (hfallback : ErrorsGrow { handlerStart st sb with vars } stop) :
    ∃ definitions : Assoc Value, stop.assigned = definitions ++ st.assigned ∧
      (st.remote.errors = [] ∨ (∀ v, (Remote.errorKey, v) ∉ definitions) →
        (handlerStart st sb).remote.errors = st.remote.errors ∧
        ∃ recorded, stop.remote.errors = st.remote.errors ++ recorded) := by
  obtain ⟨ds, hassigned, hgrow⟩ := hbody
  obtain ⟨ds', hassigned', hgrow'⟩ := hfallback
  refine ⟨ds' ++ ds, ?_, fun h => ?_⟩
  · rw [hassigned', List.append_assoc, ← hassigned]
    rfl
  · have hstart : (handlerStart st sb).remote.errors = st.remote.errors :=
      errors_handlerStart hgrow (h.imp_right fun hnone v hv => hnone v (List.mem_append_right _ hv))
    refine ⟨hstart, ?_⟩
    rcases h with hempty | hnone
    · exact ⟨stop.remote.errors, by rw [hempty, List.nil_append]⟩
    · obtain ⟨recorded, hrecorded⟩ := hgrow' fun v hv => hnone v (List.mem_append_left _ hv)
      exact ⟨recorded, hrecorded.trans (congrArg (· ++ recorded) hstart)⟩

/-- A handler is atomic for output and recorded failures. If its body succeeds, the fallback plays no part. If it fails,
the fallback starts from the output and the recorded failures from before the body and adds its own; it finds the
failure without its location, which is unbound afterwards, and a body that binds locally leaves it every other variable,
that of the running loops if it holds a table. Of recorded failures this is said if there were none before or no
definition made meanwhile is of their name. -/
theorem handler_atomic (depth : Nat) (frame : Frame) (body fallback : Node Compiled) (st st' : State)
    (r : Except Failure Unit)
    (hrun : (node (toDepth depth) frame (.onError body fallback)).run st = some (r, st')) :
    ∃ rb sb, (node (toDepth depth) frame body).run st = some (rb, sb) ∧
      (rb = .ok () → r = .ok () ∧ st' = sb) ∧
      ∀ f, rb = .error f → ∃ start stop written,
        (node (toDepth depth) frame fallback).run start = some (r, stop) ∧
        (node (toDepth depth) frame fallback).run (start.withOutput {}) =
          some (r, stop.withOutput written) ∧
        st' = { stop with vars := st'.vars } ∧
        start.out = st.out ∧ st'.out = st.out.followedBy written ∧
        start.vars.get? failureName = some (.failure (unlocated f)) ∧
        st'.vars.get? failureName = sb.vars.get? failureName ∧
        ((∀ m ∈ body.all, IsLocal m) →
          st'.vars.get? failureName = st.vars.get? failureName ∧
          ∀ name, name ≠ failureName →
            (name = Expression.loopsName → ∃ id, st.vars.get? name = some (.loops id)) →
            start.vars.get? name = st.vars.get? name) ∧
        ∃ definitions, st'.assigned = definitions ++ st.assigned ∧
          (st.remote.errors = [] ∨ (∀ v, (Remote.errorKey, v) ∉ definitions) →
            start.remote.errors = st.remote.errors ∧
            ∃ recorded, st'.remote.errors = st.remote.errors ++ recorded) := by
  rw [node] at hrun
  have hbind := hrun
  rw [run_renderOnError, Option.bind_eq_some_iff] at hbind
  obtain ⟨⟨rb, sb⟩, hbody, hrest⟩ := hbind
  refine ⟨rb, sb, hbody, ?_, ?_⟩
  · rintro rfl
    cases hrest
    exact ⟨rfl, rfl⟩
  · rintro f rfl
    obtain ⟨stop, hfallback, rfl⟩ := exists_fallback hbody hrun
    obtain ⟨written, _, hout, _, hall⟩ := (Transparent.pervasive.node depth frame fallback []).exists_ending hfallback
    have hstart := out_handlerStart (Transparent.pervasive.node depth frame body []) hbody
    refine ⟨_, stop, written, hfallback, ?_, rfl, hstart, ?_, ?_, ?_, ?_, ?_⟩
    · have hempty := hall {}
      rwa [Output.empty_followedBy] at hempty
    · change stop.out = _
      rw [hout]
      exact congrArg (·.followedBy written) hstart
    · simp
    · simp
    · intro hlocal
      have hlocals := (LocalsKept.rendering _).keeps_node body frame hlocal _ _ _ hbody
      refine ⟨?_, fun name hname hloops => ?_⟩
      · simpa using hlocals.other failureName (by decide)
      · simpa [hname] using hlocals.get?_eq hloops
    · have hgrow := ErrorsGrow.outlasting.pervasive.node depth frame body [] _ _ _ hbody
      have hgrow' := ErrorsGrow.outlasting.pervasive.node depth frame fallback [] _ _ _ hfallback
      exact exists_definitions_of_fallback hgrow hgrow'

theorem handler_atomic_failing_loop :
    let x := utf8 "x"
    let items : Compiled := ⟨0, .constant (.list [.ofInt 1]), default⟩
    let unknown : Compiled := ⟨1, .path (utf8 "unknown") [], default⟩
    let body : Node Compiled := .loop [x] items (.sequence [.text x, .content unknown false false]) []
    let fallback : Node Compiled := .sequence [.text (utf8 "f"), .content unknown false false]
    let st : State := { world := {}, out := ⟨[x]⟩, vars := [(utf8 "repeat", .loops 0)] }
    ∃ r st', (node (toDepth 0) default (.onError body fallback)).run st = some (r, st') ∧
      (∀ m ∈ body.all, IsLocal m) ∧
      ∃ f sb, (node (toDepth 0) default body).run st = some (.error f, sb) ∧
        ∃ start stop written, (node (toDepth 0) default fallback).run start = some (r, stop) ∧
          start.out = st.out ∧ st'.out = st.out.followedBy written ∧
          start.vars.get? failureName = some (.failure (unlocated f)) ∧
          start.vars.get? (utf8 "repeat") = some (.loops 0) ∧
          start.remote.errors = st.remote.errors := by
  intro x items unknown body fallback st
  have hlocal : ∀ m ∈ body.all, IsLocal m := by simp [body, Node.all, Node.allOf, IsLocal]
  have hends : ((node (toDepth 0) default (.onError body fallback)).run st).isSome = true := by
    decide +kernel
  have hfails : ((node (toDepth 0) default body).run st).all (·.1.toOption.isNone) = true := by
    decide +kernel
  obtain ⟨⟨r, st'⟩, hrun⟩ := Option.isSome_iff_exists.1 hends
  obtain ⟨rb, sb, hbody, _, hfailed⟩ := handler_atomic 0 default body fallback st st' r hrun
  rw [hbody] at hfails
  cases rb with
  | ok u => simp [Except.toOption] at hfails
  | error f =>
    obtain ⟨start, stop, written, hfallback, _, _, hstart, hout, hfailure, _, hvars, definitions, _, herrors⟩ :=
      hfailed f rfl
    have hrepeat := (hvars hlocal).2 (utf8 "repeat") (by decide) fun _ => ⟨0, rfl⟩
    exact ⟨r, st', hrun, hlocal, f, sb, hbody, start, stop, written, hfallback, hstart, hout, hfailure,
      hrepeat, (herrors (.inl rfl)).1⟩

/-- A loop that finds no table of loops in its variable replaces it for the fallback too, and a body that defines the
name of the recorded failures takes away those from before. -/
theorem handler_body_leaves_traces :
    let loops := utf8 "repeat"
    let items : Compiled := ⟨0, .constant (.list [.ofInt 1]), default⟩
    let unknown : Compiled := ⟨1, .path (utf8 "unknown") [], { expression := utf8 "unknown" }⟩
    let shown : Compiled := ⟨2, .path loops [], default⟩
    let looping : Node Compiled := .loop [utf8 "i"] items (.content unknown false false) []
    let defining : Node Compiled := .define [{ names := [Remote.errorKey], expr := items, isGlobal := true }]
      (.content unknown false false)
    let recorded : Remote := Remote.record [] { expression := utf8 "earlier" } none
    let run (n : Node Compiled) (st : State) := (node (toDepth 0) default n).run st
    (∀ m ∈ looping.all, IsLocal m) ∧
      (run (.onError looping (.content shown false false)) { world := {}, vars := [(loops, .text loops)] }).map
        (fun p => (p.1.toOption, p.2.out.text)) = some (some (), utf8 "map[]") ∧
      (run (.onError defining .omitted) { world := {}, remote := recorded }).map
        (fun p => (p.1.toOption, p.2.remote.errors.map (·.1.expression))) = some (some (), [utf8 "unknown"]) := by
  intro loops items unknown shown looping defining recorded run
  refine ⟨by simp [looping, Node.all, IsLocal], ?_, ?_⟩
  · decide +kernel
  · decide +kernel

end Render

end PageTemplate
