import PageTemplate.Proofs.ClauseRemoval
import PageTemplate.Proofs.Render.Twins

/-!
The default marker. A clause that puts a value in the place of something keeps what the template has there if the value
is the default marker. So in every run in which its expression gives the marker, the clause might as well not be there.
-/

namespace PageTemplate

/-- The program with the clause, and the one without it. -/
def Program.Trimmed.twins {x : Nat} {site : Site} {p p' : Program} (h : p.Trimmed x site p') (source : p'.source = p.source)
    (number : Nat) : Render.Twins where
  number
  first := p
  second := p'
  paired := Compiled.Renumbered x
  leftOut := Compiled.IsAt x site
  sites := Eq
  sites_refl _ := rfl
  programs := h
  source
  evaluator he := by rw [he.eq]
  site he := by rw [he.eq]
  id_eq_iff he he₁ := by
    rw [he.eq, he₁.eq]
    exact renumber_inj he₁.ne he.ne
  id_ne hc he := by
    rw [hc.id]
    exact he.ne

namespace Render

/-- The variable that an expression is, if it is no more than one. -/
def soleName? : Evaluator → Option Bytes
  | .path head [] => some head
  | _ => none

/-- The expression is a variable, and the variable has the default marker. -/
def View.namesDefault (v : View) : Bool := ((soleName? v.expr.evaluator).bind v.vars.get?).any Value.isDefault

theorem View.isDefault_of_namesDefault {v : View} (h : v.namesDefault = true) : v.IsDefault := by
  obtain ⟨value, hvalue, hdefault⟩ := (Option.any_eq_true _ _).1 h
  obtain ⟨name, hname, hget⟩ := Option.bind_eq_some_iff.1 hvalue
  obtain rfl : value = .default := by
    cases value with
    | default => rfl
    | _ => cases hdefault
  unfold IsDefault
  generalize v.expr.evaluator = evaluator at hname
  unfold soleName? at hname
  split at hname
  · cases hname
    have hfind : v.vars.find name = .ok .default := by rw [Vars.find, hget]
    rw [Evaluator.eval, hfind]
    rfl
  · cases hname

/-- The first element of a forest without a clause, and the clause. -/
def withoutClause? : List Markup.Node → Option (Markup.Attribute × List Markup.Node)
  | .element head children stop :: rest =>
    (head.attributes.find? fun a => decide (a.Substitutes stop)).map fun a =>
      (a, .element (head.without a) children stop :: rest)
  | _ => none

theorem losesClause_of_withoutClause? {tree : List Markup.Node} {q : Markup.Attribute × List Markup.Node}
    (h : withoutClause? tree = some q) : Markup.LosesClause q.1 tree q.2 := by
  unfold withoutClause? at h
  split at h
  · obtain ⟨a, ha, rfl⟩ := Option.map_eq_some_iff.1 h
    exact .here (List.mem_of_find?_eq_some ha) (by simpa using List.find?_some ha)
  · cases h

end Render

end PageTemplate
