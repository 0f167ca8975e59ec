import PageTemplate.Proofs.Assoc
import PageTemplate.Template

/-!
Failures found while a template is read. Reading markup, clauses and expressions never fails at the site of an
expression that is being rendered: what is reported there are faults of the source, and so is whatever they go back to.
-/

namespace PageTemplate

namespace Failure

@[simp] theorem site?_fault_some (kind : FaultKind) (span : Option Span) (summary : Bytes) (f : Failure) :
    (fault kind span summary (some f)).site? = f.site? := by
  simp [site?, chain]

end Failure

/-- If the computation fails, the failure has no site. -/
def Unlocated {α : Type} (x : Except Failure α) : Prop := ∀ f, x = .error f → f.site? = none

namespace Unlocated

variable {α β : Type}
variable {x : Except Failure α}

theorem ok (a : α) : Unlocated (.ok a) := by
  intro f h
  cases h

theorem error {f : Failure} (hf : f.site? = none) : Unlocated (.error f : Except Failure α) := by
  intro f' h
  cases h
  exact hf

theorem bind {f : α → Except Failure β} (hx : Unlocated x) (hf : ∀ a, Unlocated (f a)) :
    Unlocated (x >>= f) := by
  cases x with
  | ok a => exact hf a
  | error e => exact error (hx e rfl)

theorem map (f : α → β) (hx : Unlocated x) : Unlocated (f <$> x) := by
  cases x with
  | ok a => exact ok _
  | error e => exact error (hx e rfl)

theorem mapM {f : α → Except Failure β} (l : List α) (hf : ∀ a, Unlocated (f a)) : Unlocated (l.mapM f) := by
  induction l with
  | nil => exact ok []
  | cons a l ih =>
    rw [List.mapM_cons]
    exact bind (hf a) fun _ => bind ih fun _ => ok _

end Unlocated

/-! ### Expressions -/

namespace Expression

/-- No type of expressions is compiled by the host. -/
def Registry.IsNative (r : Registry) : Prop :=
  ∀ name t, r.types.get? name = some t → ∀ compile, t.method ≠ .host compile

theorem unlocated_compileTerm (terms : Bytes → Option Evaluator) (source : Bytes) :
    Unlocated (compileTerm terms source) := by
  unfold compileTerm
  dsimp only
  split
  · exact .error rfl
  · split
    · exact .ok _
    · exact .error rfl

theorem unlocated_compilePath (source : Bytes) : Unlocated (compilePath source) := by
  unfold compilePath
  dsimp only
  split
  · exact .error rfl
  · split
    · split
      · exact .ok _
      · exact .error rfl
    · exact .error rfl

end Expression

theorem Markup.unlocated_parse (source filename : Bytes) : Unlocated (Markup.parse source filename) := by
  refine .map TreeState.finish ?_
  generalize tokenize source filename = tokens
  generalize ({} : TreeState) = st
  induction tokens generalizing st with
  | nil => exact .ok st
  | cons t ts ih =>
    rw [List.foldlM_cons]
    refine .bind ?_ ih
    unfold TreeState.step
    split
    · exact .ok _
    · split
      · split
        · exact .ok _
        · exact .error rfl
      · exact .ok _
      · exact .ok _

namespace Clause

open Markup (Token)

variable (t : Token)

theorem unlocated_checkNames (names : List Bytes) : Unlocated (checkNames t names) := by
  unfold checkNames
  split
  · exact .error rfl
  · exact .ok _

theorem unlocated_definitions : Unlocated (definitions t) := by
  refine .bind (.mapM _ fun part => ?_) fun ds => ?_
  · split
    · exact .error rfl
    · exact .bind (unlocated_checkNames _ _) fun _ => .ok _
  · split
    · exact .error rfl
    · exact .ok _

theorem unlocated_iteration : Unlocated (iteration t) := by
  unfold iteration
  dsimp only
  split
  · exact .error rfl
  · exact .bind (unlocated_checkNames _ _) fun _ => .ok _

theorem unlocated_attributes : Unlocated (attributes t) := by
  unfold attributes
  generalize split t = parts
  generalize ([] : List Bytes) = seen
  induction parts generalizing seen with
  | nil => exact .ok _
  | cons part parts ih =>
    unfold attributeEntries
    split
    · exact .bind (ih _) fun _ => .ok _
    · dsimp only
      split
      · exact .error rfl
      · exact .bind (ih _) fun _ => .ok _

theorem unlocated_translatedAttributes : Unlocated (translatedAttributes t) := by
  refine .mapM _ fun part => ?_
  split
  · exact .ok _
  · exact .ok _
  · exact .error rfl

end Clause

namespace Directives

open Markup (Attribute)

theorem unlocated_classify (as : List Attribute) (ds : Directives) : Unlocated (classify as ds) := by
  induction as generalizing ds with
  | nil => exact .ok _
  | cons a as ih =>
    unfold classify
    split
    · split
      · exact .error rfl
      · split
        · exact .error rfl
        · exact ih _
    · split
      · exact ih _
      · exact .bind (ih _) fun _ => .ok _

theorem unlocated_reject (ds : Directives) (d : Directive) (kind : FaultKind) (summary : String) :
    Unlocated (ds.reject d kind summary) := by
  unfold reject
  split
  · exact .error rfl
  · exact .ok _

theorem unlocated_checkExclusions (ds : Directives) (inNamespace : Bool) :
    Unlocated (ds.checkExclusions inNamespace) := by
  have hcheck : ∀ (test : Bool) (d : Directive) (kind : FaultKind) (summary : String)
      {rest : Unit → Except Failure Unit}, (∀ u, Unlocated (rest u)) →
      Unlocated (if test then ds.reject d kind summary >>= rest else rest ()) := by
    intro test d kind summary rest hrest
    split
    · exact .bind (ds.unlocated_reject d kind summary) hrest
    · exact hrest ()
  refine hcheck _ _ _ _ fun _ => hcheck _ _ _ _ fun _ => hcheck _ _ _ _ fun _ => hcheck _ _ _ _ fun _ => ?_
  dsimp only
  split
  · exact ds.unlocated_reject _ _ _
  · exact .ok _

end Directives

end PageTemplate
