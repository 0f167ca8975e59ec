import PageTemplate.Proofs.BuiltElements
import PageTemplate.Proofs.Tracking
import PageTemplate.Proofs.Switches

/-!
The fills that a macro call hands over. A call collects the fills that stand in it, outside of other calls and of other
fills, so that each fill goes to the innermost call around it unless it stands in another fill there. The main statement
is `fills_go_to_innermost_call`.
-/

namespace PageTemplate.Builder

open Markup (RawAttribute ElementHead)
open Expression (Registry)

namespace Built

variable {p : List Nat} {b : Built}

/-! Paths in document order come one after the other in the order of lists. -/

mutual

theorem pairwise_suppliers : ∀ b : Built, b.suppliers.Pairwise (· < ·)
  | mk _ ds children _ _ => by
    rw [suppliers]
    split
    · simp
    · split
      · exact .nil
      · exact pairwise_suppliersFrom 0 children

theorem pairwise_suppliersFrom (i : Nat) : ∀ bs : List Built, (suppliersFrom i bs).Pairwise (· < ·)
  | [] => .nil
  | b :: bs => by
    have hb : (b.suppliers.map (i :: ·)).Pairwise (· < ·) :=
      List.Pairwise.map _ (fun _ _ hlt => List.cons_lt_cons_iff.2 (.inr ⟨rfl, hlt⟩)) (pairwise_suppliers b)
    refine List.pairwise_append.2 ⟨hb, pairwise_suppliersFrom (i + 1) bs, fun p hp p' hp' => ?_⟩
    obtain ⟨q, _, rfl⟩ := List.mem_map.1 hp
    obtain ⟨j, _, _, rfl, _⟩ := mem_suppliersFrom.1 hp'
    exact List.cons_lt_cons_iff.2 (.inl (by omega))

end

/-- The ways down from two calls to one fill are the same, since neither passes the other call. -/
theorem Reaches.unique {c c' : Built} {q q' p' : List Nat} (hc : b.descend q = some c)
    (hc' : b.descend q' = some c') (hcall' : c'.isCall = true) (h : c.Reaches p) (h' : c'.Reaches p')
    (heq : q ++ p = q' ++ p') (hle : q <+: q') : q = q' := by
  obtain ⟨x, rfl⟩ := hle
  by_cases hx : x = []
  · rw [hx, List.append_nil]
  · rw [List.append_assoc] at heq
    obtain rfl := List.append_cancel_left heq
    have hdown : c.descend x = some c' := by
      rwa [descend_append, hc] at hc'
    have hbetween : Between x (x ++ p') :=
      ⟨List.prefix_append x p', hx, fun h => h'.below (List.self_eq_append_right.1 h)⟩
    have hnot := (h.between x hbetween c' hdown).2
    rw [hcall'] at hnot
    cases hnot

end Built

open Built in
/-- Each fill of a built template stands in a macro call. The innermost one around it has it among its slots, unless the
fill stands in another one inside that call, and no other call has it. The slots of a call are in document order, each
fill once. -/
theorem fills_go_to_innermost_call {r : Registry} {filename source : Bytes} {tree : List Markup.Node} {m : Module}
    (h : build r filename source tree = .ok m) :
    ∃ bs st, (builtNodes { registry := r } [] tree).run {} = .ok (bs, st) ∧ m.body = .sequence (bs.map result) ∧
      (∀ p b, (template bs).descend p = some b → b.isFill = true → ∃ q x c, p = q ++ x ∧ x ≠ [] ∧
        (template bs).descend q = some c ∧ c.isCall = true ∧
        (∀ y, Between y x → ∀ d, c.descend y = some d → d.isCall = false) ∧
        (c.Reaches x ∨ ∃ y d, Between y x ∧ c.descend y = some d ∧ d.isFill = true)) ∧
      (∀ q c, (template bs).descend q = some c → c.isCall = true → ∃ slots ps, c.Calls slots ∧ ps.Pairwise (· < ·) ∧
        (∀ p, p ∈ ps ↔ c.Reaches p) ∧
        List.Forall₂ (fun p s => ∃ b, c.descend p = some b ∧ b.Fills s) ps slots) ∧
      ∀ q q' c c' p p', (template bs).descend q = some c → (template bs).descend q' = some c' → c.isCall = true →
        c'.isCall = true → c.Reaches p → c'.Reaches p' → q ++ p = q' ++ p' → q = q' := by
  obtain ⟨bs, st, hbs, hbody, hmade⟩ := exists_built_of_build h
  refine ⟨bs, st, hbs, hbody, fun p b hb hfill => ?_, fun q c hc hcall => ?_, ?_⟩
  · obtain ⟨k, ⟨_, hopen, _⟩, hdown⟩ := hmade.descend hb
    obtain ⟨q, x, c, rfl, hx, hc, hcall, hclear⟩ := (hdown (hopen hfill)).resolve_left fun h => by cases h.1
    refine ⟨q, x, c, rfl, hx, hc, hcall, hclear, ?_⟩
    by_cases hother : ∃ y d, Between y x ∧ c.descend y = some d ∧ d.isFill = true
    · exact .inr hother
    · have hfound : c.descend x = some b := by
        rwa [descend_append, hc] at hb
      refine .inl ⟨hx, ⟨b, hfound, hfill⟩, fun y hy d hd => ⟨?_, hclear y hy d hd⟩⟩
      exact eq_false_of_ne_true fun hd' => hother ⟨y, d, hy, hd, hd'⟩
  · obtain ⟨k, ⟨hlawful, _, hchildren⟩, _⟩ := hmade.descend hc
    refine ⟨_, suppliersFrom 0 c.children, hlawful.slots hcall, pairwise_suppliersFrom 0 c.children,
      fun p => mem_suppliersFrom_zero, ?_⟩
    exact forall₂_of_children hchildren
  · intro q q' c c' p p' hc hc' hcall hcall' hp hp' heq
    rcases List.prefix_or_prefix_of_prefix (List.prefix_append q p) (heq ▸ List.prefix_append q' p') with hle | hle
    · exact hp.unique hc hc' hcall' hp' heq hle
    · exact (hp'.unique hc' hc hcall hp heq.symm hle).symm

/-- A call in a call, with fills before it, in it and after it. -/
theorem fills_go_to_innermost_call_nested :
    let r := Registry.initial (utf8 "expr") []
    let source := utf8 ("<p metal:define-macro=\"m\"><b metal:define-slot=\"s\"/></p><div metal:use-macro=\"macros.m\">" ++
      "<i><b metal:fill-slot=\"s\"/></i><u metal:use-macro=\"macros.m\"><b metal:fill-slot=\"s\"/></u>" ++
      "<b metal:fill-slot=\"t\"/></div>")
    ∃ tree m bs st b q x d c slots ps, Markup.parse source [] = .ok tree ∧ build r [] source tree = .ok m ∧
      (builtNodes { registry := r } [] tree).run {} = .ok (bs, st) ∧
      ((Built.template bs).descend [1, 1, 0] = some b ∧ b.isFill = true ∧
        [1, 1, 0] = q ++ x ∧ x ≠ [] ∧ (Built.template bs).descend q = some d ∧ d.isCall = true) ∧
      (Built.template bs).descend [1] = some c ∧ c.Calls slots ∧ ps.Pairwise (· < ·) ∧ (∀ p, p ∈ ps ↔ c.Reaches p) ∧
      List.Forall₂ (fun p s => ∃ b, c.descend p = some b ∧ b.Fills s) ps slots ∧
      [0, 0] ∈ ps ∧ [1, 0] ∉ ps ∧ [2] ∈ ps := by
  intro r source
  obtain ⟨tree, m, hparse, hbuild, _⟩ := exists_module_of_toOption r source (fun _ => ()) (a := ()) (by decide +kernel)
  have hfound : ((Markup.parse source []).toOption.bind fun tree =>
      ((builtNodes { registry := r } [] tree).run {}).toOption.bind fun p =>
        ((Built.template p.1).descend [1, 1, 0]).bind fun b => ((Built.template p.1).descend [1]).map fun c =>
          (b.isFill, c.isCall, Built.suppliersFrom 0 c.children)) = some (true, true, [[0, 0], [2]]) := by
    decide +kernel
  obtain ⟨bs, st, hbs, _, hinside, hcalls, _⟩ := fills_go_to_innermost_call hbuild
  rw [hparse, Except.toOption, Option.bind_some, hbs, Except.toOption, Option.bind_some] at hfound
  obtain ⟨b, hb, hfound⟩ := Option.bind_eq_some_iff.1 hfound
  obtain ⟨c, hc, heq⟩ := Option.map_eq_some_iff.1 hfound
  obtain ⟨hfill, heq⟩ := Prod.mk.inj heq
  obtain ⟨hcall, hpaths⟩ := Prod.mk.inj heq
  obtain ⟨q, x, d, hpath, hx, hd, hdcall, _⟩ := hinside _ b hb hfill
  obtain ⟨slots, ps, hslots, hsorted, hreaches, hfills⟩ := hcalls [1] c hc hcall
  have hmem : ∀ p, p ∈ ps ↔ p ∈ [[0, 0], [2]] := fun p => by
    rw [hreaches, ← Built.mem_suppliersFrom_zero, hpaths]
  exact ⟨tree, m, bs, st, b, q, x, d, c, slots, ps, hparse, hbuild, hbs, ⟨hb, hfill, hpath, hx, hd, hdcall⟩, hc, hslots,
    hsorted, hreaches, hfills, (hmem _).2 (by decide), fun h => absurd ((hmem _).1 h) (by decide), (hmem _).2 (by decide)⟩

/-- A fill in a fill is not among the slots of the call around both. -/
theorem fill_in_fill_left_out :
    let r := Registry.initial (utf8 "expr") []
    let source := utf8 ("<p metal:define-macro=\"m\"><b metal:define-slot=\"s\"/><b metal:define-slot=\"t\"/></p>" ++
      "<div metal:use-macro=\"macros.m\"><i metal:fill-slot=\"s\"><b metal:fill-slot=\"t\"/></i></div>")
    ∃ tree m bs st c b slots, Markup.parse source [] = .ok tree ∧ build r [] source tree = .ok m ∧
      (builtNodes { registry := r } [] tree).run {} = .ok (bs, st) ∧
      (Built.template bs).descend [1] = some c ∧ c.Calls slots ∧ slots.map (·.1) = [utf8 "s"] ∧
      c.descend [0, 0] = some b ∧ b.isFill = true ∧ b.result.fills.map (·.1) = [utf8 "t"] := by
  intro r source
  obtain ⟨tree, m, hparse, hbuild, _⟩ := exists_module_of_toOption r source (fun _ => ()) (a := ()) (by decide +kernel)
  have hfill : ((Markup.parse source []).toOption.bind fun tree =>
      ((builtNodes { registry := r } [] tree).run {}).toOption.bind fun p =>
        ((Built.template p.1).descend [1]).bind fun c => (c.descend [0, 0]).map fun b =>
          (c.isCall, (Node.fillsOf (c.children.map Built.result)).map (·.1), b.isFill, b.result.fills.map (·.1))) =
      some (true, [utf8 "s"], true, [utf8 "t"]) := by decide +kernel
  obtain ⟨bs, st, hbs, _, hmade⟩ := exists_built_of_build hbuild
  rw [hparse, Except.toOption, Option.bind_some, hbs, Except.toOption, Option.bind_some] at hfill
  obtain ⟨c, hc, hfill⟩ := Option.bind_eq_some_iff.1 hfill
  obtain ⟨b, hb, heq⟩ := Option.map_eq_some_iff.1 hfill
  obtain ⟨hcall, heq⟩ := Prod.mk.inj heq
  obtain ⟨hslots, heq⟩ := Prod.mk.inj heq
  obtain ⟨hfill, hname⟩ := Prod.mk.inj heq
  obtain ⟨_, ⟨hlawful, _⟩, _⟩ := hmade.descend hc
  exact ⟨tree, m, bs, st, c, b, _, hparse, hbuild, hbs, hc, hlawful.slots hcall, hslots, hb, hfill, hname⟩

end PageTemplate.Builder
