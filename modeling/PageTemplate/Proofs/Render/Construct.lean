import PageTemplate.Proofs.Render.Run
import PageTemplate.Render

/-!
What the constructs that render a body come to when they are started in a state: where the body starts, and what is put
back when it has ended, whether it succeeded or failed.
-/

namespace PageTemplate.Render

open Run

variable {α : Type}

@[simp] theorem run_binding (name : Bytes) (v : Value) (body : Run α) (st : State) :
    (binding name v body).run st =
      (body.run { st with vars := st.vars.insert name v }).map fun p =>
        (p.1, { p.2 with vars := p.2.vars.set? name (st.vars.get? name) }) := by
  rw [binding, run_get_bind, run_modify_bind, run_restoring]
  rfl

/-- What evaluating an expression comes to, and the state after it. -/
def evaluation (frame : Frame) (e : Compiled) (st : State) : Except Failure Value × State :=
  let p := (e.evaluator.eval st.vars).run st.world
  (p.1, { st with
    world := p.2
    events := .evaluated e p.1 :: st.events
    views := ⟨frame, e, st.vars, st.assigned, st.world⟩ :: st.views })

/-- The value of an expression, or its failure at its site. -/
def outcome (e : Compiled) : Except Failure Value → Run Value
  | .ok v => pure v
  | .error f => failAt e f

theorem evaluateFresh_eq (frame : Frame) (e : Compiled) :
    evaluateFresh frame e = modifyGet (evaluation frame e) >>= outcome e := rfl

theorem run_evaluateFresh (frame : Frame) (e : Compiled) (st : State) :
    let p := (e.evaluator.eval st.vars).run st.world
    let st' := { st with
      world := p.2
      events := .evaluated e p.1 :: st.events
      views := ⟨frame, e, st.vars, st.assigned, st.world⟩ :: st.views }
    (evaluateFresh frame e).run st =
      match p.1 with
      | .ok v => some (.ok v, st')
      | .error f => (failAt e f).run st' := by
  rw [evaluateFresh, run_get_bind]
  generalize (e.evaluator.eval st.vars).run st.world = p
  obtain ⟨r, w⟩ := p
  cases r <;> rfl

@[simp] theorem lookup_setEntry {κ β : Type} [BEq κ] [LawfulBEq κ] [DecidableEq κ] (entries : List (κ × β)) (k j : κ)
    (v : Option β) : (setEntry entries k v).lookup j = if j = k then v else entries.lookup j := by
  have hrest : (entries.filter fun e => !(e.1 == k)).lookup j = if j = k then none else entries.lookup j := by
    induction entries with
    | nil => simp
    | cons e es ih =>
      obtain ⟨i, b⟩ := e
      by_cases hi : i = k
      · subst hi
        rw [List.filter_cons_of_neg (by simp), ih, List.lookup_cons]
        grind
      · rw [List.filter_cons_of_pos (by simpa using hi), List.lookup_cons, List.lookup_cons, ih]
        grind
  cases v with
  | none => exact hrest
  | some b =>
    rw [setEntry, List.lookup_cons, hrest]
    grind

theorem State.getD_modifyActivation (st : State) (frame : Frame) (i : Nat) (f : Activation → Activation) :
    (modifyActivation frame f st).activations.getD i {} =
      if i = frame.activation ∧ i < st.activations.length then f (st.activations.getD i {})
      else st.activations.getD i {} := by
  simp only [modifyActivation, List.getD_eq_getElem?_getD, List.getElem?_modify]
  by_cases hlt : i < st.activations.length
  · grind
  · have hnone : st.activations[i]? = none := List.getElem?_eq_none (Nat.le_of_not_lt hlt)
    grind

@[simp] theorem run_resolved_bind (v : Value) (f : Value → Run α) (st : State) :
    (resolved v >>= f).run st = (f (st.world.heap.resolve v)).run st := rfl

@[simp] theorem run_truth_bind (v : Value) (f : Bool → Run α) (st : State) :
    (truth v >>= f).run st = (f (st.world.heap.resolve v).truthy).run st := rfl

@[simp] theorem run_activation_bind (frame : Frame) (f : Activation → Run α) (st : State) :
    (activation frame >>= f).run st = (f (st.activations.getD frame.activation {})).run st := rfl

@[simp] theorem run_renderFill (call : Continuation) (fill : Node Compiled × Frame) (st : State) :
    (renderFill call fill).run st =
      ((call fill.2 fill.1).run { st with named := none }).map fun p =>
        (p.1, { p.2 with vars := st.vars, named := st.named }) := by
  rw [renderFill, run_get_bind, run_set_bind, run_restoring]

/-- The state in which the body of a program starts. -/
def bodyStart (program : Nat) (st : State) : State :=
  { st with
    vars := st.vars.insert (utf8 "macros") ((st.world.program program).macroTable program)
    named := none
    activations := st.activations ++ [default] }

/-- The frame in which the body of a program is rendered. -/
def bodyFrame (program bound : Nat) (slots : Fills) (st : State) : Frame :=
  let settings := st.remote.settings?.getD bound
  { program, settings, activation := st.activations.length
    domain := (st.world.settingsOf settings).domain, slots }

@[simp] theorem run_renderBody (call : Continuation) (program bound : Nat) (body : Node Compiled)
    (slots : Fills) (st : State) :
    (renderBody call program bound body slots).run st =
      ((call (bodyFrame program bound slots st) body).run (bodyStart program st)).map fun p =>
        (p.1, { p.2 with
          named := st.named
          activations := p.2.activations.take st.activations.length }) := by
  rw [renderBody, run_get_bind, run_set_bind, run_restoring]
  rfl

/-- The table of fills that a call hands to the macro. -/
def passedSlots (frame : Frame) (fills : List (Bytes × Node Compiled)) (extend : Bool) :
    Fills :=
  let own : Assoc (Node Compiled × Frame) := Assoc.ofEntries (fills.map fun s => (s.1, s.2, frame))
  if extend then Assoc.insertAll own frame.slots else own

theorem run_callMacro (call : Continuation) (frame : Frame) (fills : List (Bytes × Node Compiled))
    (extend : Bool) (m : Value) (st : State) :
    (callMacro call frame fills extend m).run st =
      ((renderMacro call (passedSlots frame fills extend) m).run st).map fun p =>
        (p.1, { p.2 with vars := p.2.remote.mergeInto st.vars }) := by
  rw [callMacro, run_get_bind, run_restoring]
  rfl

@[simp] theorem run_capture (named : Option (Assoc Bytes)) (body : Run Unit) (st : State) :
    (capture named body).run st =
      (body.run { st with out := {}, named }).map fun p =>
        (p.1.map fun _ => (p.2.out.text, p.2.named), { p.2 with out := st.out, named := st.named }) := by
  rw [capture, run_get_bind, run_set_bind, run_bind, run_attempt]
  cases body.run { st with out := {}, named } with
  | none => rfl
  | some p =>
    obtain ⟨r, st₁⟩ := p
    cases r <;> rfl

/-- The failure without the location around it. -/
def unlocated : Failure → Failure
  | .located _ cause => cause
  | f => f

/-- The state in which a fallback starts, before the failure is bound: output and recorded failures are cut back. -/
def handlerStart (before st : State) : State :=
  { st with
    out := st.out.truncate before.out.mark
    remote := st.remote.truncateErrors before.remote.errors.length }

theorem run_renderOnError (body fallback : Run Unit) (st : State) :
    (renderOnError body fallback).run st =
      (body.run st).bind fun p =>
        match p.1 with
        | .ok () => some (.ok (), p.2)
        | .error f =>
          (binding (utf8 "error") (.failure (unlocated f)) fallback).run (handlerStart st p.2) := by
  rw [renderOnError, run_get_bind, run_bind, run_attempt]
  cases body.run st with
  | none => rfl
  | some p =>
    obtain ⟨r, st₁⟩ := p
    cases r <;> rfl

end PageTemplate.Render
