import PageTemplate.Proofs.Bytes
import PageTemplate.Render.State

/-!
Runs from given states. The equations say what each kind of step comes to, and how a run that ends is taken apart into
the runs of its steps. `Run.Keeps` says that a run relates the state it starts in to every state it ends in.
-/

namespace PageTemplate.Render

/-- What slots are filled with, each in its frame. -/
abbrev Fills := List (Bytes × Node Compiled × Frame)

namespace Run

variable {α β : Type}

@[simp] theorem run_get (st : State) : (get : Run State).run st = some (.ok st, st) := rfl

@[simp] theorem run_set (st' st : State) : (set st' : Run Unit).run st = some (.ok (), st') := rfl

@[simp] theorem run_modify (f : State → State) (st : State) :
    (modify f : Run Unit).run st = some (.ok (), f st) := rfl

theorem run_bind (x : Run α) (f : α → Run β) (st : State) :
    (x >>= f).run st = (x.run st).bind fun p =>
      match p.1 with
      | .ok a => (f a).run p.2
      | .error e => some (.error e, p.2) := by
  change Option.bind _ _ = _
  congr 1
  funext p
  obtain ⟨r, st'⟩ := p
  cases r <;> rfl

@[simp] theorem run_attempt (x : Run α) (st : State) :
    (attempt x).run st = (x.run st).map fun p => (.ok p.1, p.2) := by
  change Option.bind _ _ = _
  cases x.run st <;> rfl

@[simp] theorem run_liftExcept (r : Except Failure α) (st : State) :
    (liftExcept r : Run α).run st = some (r, st) := by
  cases r <;> rfl

@[simp] theorem run_restoring (restore : State → State) (x : Run α) (st : State) :
    (restoring restore x).run st = (x.run st).map fun p => (p.1, restore p.2) := by
  simp only [restoring, run_bind, run_attempt]
  cases x.run st with
  | none => rfl
  | some p => simp

@[simp] theorem run_get_bind (f : State → Run α) (st : State) : (get >>= f).run st = (f st).run st := rfl

@[simp] theorem run_set_bind (st' : State) (f : Unit → Run α) (st : State) :
    (set st' >>= f).run st = (f ()).run st' := rfl

@[simp] theorem run_modify_bind (g : State → State) (f : Unit → Run α) (st : State) :
    (modify g >>= f).run st = (f ()).run (g st) := rfl

/-- What follows on a run matters only where the run succeeds. -/
theorem run_bind_congr {x : Run α} {f g : α → Run β} {st : State}
    (h : ∀ a st', x.run st = some (.ok a, st') → (f a).run st' = (g a).run st') :
    (x >>= f).run st = (x >>= g).run st := by
  rw [run_bind, run_bind]
  cases hx : x.run st with
  | none => rfl
  | some p =>
    obtain ⟨r, st'⟩ := p
    cases r with
    | ok a => exact h a st' hx
    | error e => rfl

variable {x : Run α} {f : α → Run β} {st st' : State}

theorem run_bind_eq_some {r : Except Failure β} (h : (x >>= f).run st = some (r, st')) :
    (∃ a st₁, x.run st = some (.ok a, st₁) ∧ (f a).run st₁ = some (r, st')) ∨
      ∃ e, x.run st = some (.error e, st') ∧ r = .error e := by
  rw [run_bind, Option.bind_eq_some_iff] at h
  obtain ⟨⟨r₁, st₁⟩, hx, h⟩ := h
  cases r₁ with
  | ok a => exact .inl ⟨a, st₁, hx, h⟩
  | error e =>
    cases h
    exact .inr ⟨e, hx, rfl⟩

theorem run_bind_eq_ok {b : β} (h : (x >>= f).run st = some (.ok b, st')) :
    ∃ a st₁, x.run st = some (.ok a, st₁) ∧ (f a).run st₁ = some (.ok b, st') := by
  rcases run_bind_eq_some h with h | ⟨_, _, he⟩
  · exact h
  · cases he

theorem run_attempt_eq_some {r : Except Failure (Except Failure α)}
    (h : (attempt x).run st = some (r, st')) : ∃ r', x.run st = some (r', st') ∧ r = .ok r' := by
  rw [run_attempt, Option.map_eq_some_iff] at h
  obtain ⟨⟨r', st₁⟩, hx, h⟩ := h
  cases h
  exact ⟨r', hx, rfl⟩

theorem run_restoring_eq_some {restore : State → State} {r : Except Failure α}
    (h : (restoring restore x).run st = some (r, st')) :
    ∃ st₁, x.run st = some (r, st₁) ∧ st' = restore st₁ := by
  rw [run_restoring, Option.map_eq_some_iff] at h
  obtain ⟨⟨r₁, st₁⟩, hx, h⟩ := h
  cases h
  exact ⟨st₁, hx, rfl⟩

/-! Runs that are computed to their ends. -/

theorem exists_ok_of_any (x : Run Unit) (st : State) (good : State → Bool)
    (h : (x.run st).any (fun p => p.1.toOption.isSome && good p.2) = true) :
    ∃ st', x.run st = some (.ok (), st') ∧ good st' = true := by
  obtain ⟨⟨r, st'⟩, hrun, hgood⟩ := (Option.any_eq_true _ _).1 h
  obtain ⟨hok, hgood⟩ := Bool.and_eq_true_iff.1 hgood
  obtain ⟨_, rfl⟩ := exists_eq_ok hok
  exact ⟨st', hrun, hgood⟩

theorem exists_error_of_any (x : Run α) (st : State) (h : (x.run st).any (·.1.toOption.isNone) = true) :
    ∃ f st', x.run st = some (.error f, st') := by
  obtain ⟨⟨_ | _, st'⟩, hrun, hnone⟩ := (Option.any_eq_true _ _).1 h
  · exact ⟨_, st', hrun⟩
  · cases hnone

/-- However the run ends, the relation holds between the states before and after it. -/
def Keeps (R : State → State → Prop) (act : Run α) : Prop :=
  ∀ st r st', act.run st = some (r, st') → R st st'

namespace Keeps

variable {R : State → State → Prop}

theorem exceeded : Keeps R (Run.exceeded : Run α) := by
  intro st r st' h
  cases h

theorem get_bind {f : State → Run α} (h : ∀ st r st', (f st).run st = some (r, st') → R st st') :
    Keeps R (get >>= f) := h

theorem attempt {x : Run α} (hx : Keeps R x) : Keeps R (Run.attempt x) := by
  intro st r st' h
  obtain ⟨r', hrun, _⟩ := run_attempt_eq_some h
  exact hx _ _ _ hrun

theorem modify {g : State → State} (h : ∀ st, R st (g st)) : Keeps R (modify g) := by
  intro st r st' hrun
  cases hrun
  exact h st

end Keeps

end Run

end PageTemplate.Render
