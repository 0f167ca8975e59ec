import Mathlib.Data.List.Basic
import PageTemplate.Program.Node

/-!
Nodes as trees. `Node.parts` is what stands directly below a node, whatever kind of node it is, so that one induction
serves for what is said of all the nodes below another.
-/

namespace PageTemplate.Node

variable {ε : Type}
variable {n : Node ε} {s : Bytes × Node ε}

/-- What stands directly below a node, some of which may be absent. The fills of a call are below it. -/
def parts : Node ε → List (Node ε)
  | sequence nodes | startTag _ _ nodes _ => nodes
  | element _ start body stop => [start, body, stop]
  | condition _ left right | onError left right => [left, right]
  | useInternal _ slots _ | useExternal _ slots _ => slots.map fun s => fillSlot s.1 s.2
  | loop _ _ body _ | define _ body | cache _ body | translate _ body | name _ body | domain _ body
  | macroDef _ body | fillSlot _ body | defineSlot _ body | switch _ _ body | case _ _ body | module _ body => [body]
  | _ => []

theorem sizeOf_lt_of_mem_parts {c : Node ε} (h : c ∈ n.parts) : sizeOf c < sizeOf n := by
  have hlist : ∀ ns : List (Node ε), c ∈ ns → sizeOf c < sizeOf ns := fun _ => List.sizeOf_lt_of_mem
  have hslot : ∀ s : Bytes × Node ε, sizeOf (fillSlot s.1 s.2) = sizeOf s := fun ⟨_, _⟩ => by simp
  have hslots : ∀ (s : Bytes × Node ε) (ss : List (Bytes × Node ε)), s ∈ ss → sizeOf s < sizeOf ss :=
    fun _ _ => List.sizeOf_lt_of_mem
  cases n <;> simp [parts] at h <;> grind

@[elab_as_elim]
theorem parts_induction {P : Node ε → Prop} (node : ∀ n, (∀ c ∈ n.parts, P c) → P n) (n : Node ε) : P n :=
  node n fun c hc =>
    have _ := sizeOf_lt_of_mem_parts hc
    parts_induction node c
termination_by sizeOf n
decreasing_by assumption

@[simp] theorem allOf_eq_flatMap (ns : List (Node ε)) : allOf ns = ns.flatMap all := by
  induction ns with
  | nil => rfl
  | cons n ns ih => simp [allOf, ih]

@[simp] theorem allOfSlots_eq_flatMap (slots : List (Bytes × Node ε)) :
    allOfSlots slots = (slots.map fun s => fillSlot s.1 s.2).flatMap all := by
  induction slots with
  | nil => rfl
  | cons s slots ih => simp [allOfSlots, all, ih]

theorem all_eq (h : n.isPresent = true) : n.all = n :: n.parts.flatMap all := by
  cases n <;> simp [all, parts, isPresent] at h ⊢

theorem mem_all_iff {m : Node ε} : m ∈ n.all ↔ (n.isPresent = true ∧ m = n) ∨ ∃ c ∈ n.parts, m ∈ c.all := by
  by_cases h : n.isPresent = true
  · simp [all_eq h, h]
  · cases n <;> simp [isPresent, all, parts] at h ⊢

theorem mem_all_self (h : n.isPresent = true) : n ∈ n.all := mem_all_iff.2 (.inl ⟨h, rfl⟩)

theorem all_subset_of_mem_parts {c : Node ε} (h : c ∈ n.parts) : c.all ⊆ n.all :=
  fun _ hm => mem_all_iff.2 (.inr ⟨c, h, hm⟩)

theorem children_subset_parts (n : Node ε) : n.children ⊆ n.parts := by
  cases n <;> first | exact List.Subset.refl _ | exact List.filter_subset_self _

theorem all_subset_of_mem {m : Node ε} (h : m ∈ n.all) : m.all ⊆ n.all := by
  induction n using parts_induction with
  | node n ih =>
    obtain ⟨_, rfl⟩ | ⟨c, hc, hm⟩ := mem_all_iff.1 h
    · exact List.Subset.refl _
    · exact List.Subset.trans (ih c hc hm) (all_subset_of_mem_parts hc)

/-- The node and all nodes below it have a property. -/
def Every (Good : Node ε → Prop) (n : Node ε) : Prop := ∀ m ∈ n.all, Good m

theorem Every.own {P : Node ε → Prop} (h : n.Every P) (hn : n.isPresent = true) : P n := h n (mem_all_self hn)

theorem Every.below {P : Node ε → Prop} (h : n.Every P) : ∀ m ∈ n.all.tail, P m := fun m hm =>
  h m (List.mem_of_mem_tail hm)

@[simp] theorem fillsOf_eq_flatMap (ns : List (Node ε)) : fillsOf ns = ns.flatMap fills := by
  induction ns with
  | nil => rfl
  | cons n ns ih => simp [fillsOf, ih]

theorem eq_or_mem_parts_of_mem_fills (h : s ∈ n.fills) :
    n = fillSlot s.1 s.2 ∨ ∃ c ∈ n.parts, s ∈ c.fills := by
  cases n <;> simp [fills, parts] at h ⊢ <;> simp_all

theorem all_subset_of_mem_fills (h : s ∈ n.fills) :
    (fillSlot s.1 s.2).all ⊆ n.all := by
  induction n using parts_induction with
  | node n ih =>
    obtain rfl | ⟨c, hc, hs⟩ := eq_or_mem_parts_of_mem_fills h
    · exact List.Subset.refl _
    · exact List.Subset.trans (ih c hc hs) (all_subset_of_mem_parts hc)

theorem all_subset_of_mem_fillsOf {ns : List (Node ε)} (h : s ∈ fillsOf ns) :
    (fillSlot s.1 s.2).all ⊆ allOf ns := by
  rw [fillsOf_eq_flatMap, List.mem_flatMap] at h
  obtain ⟨n, hn, hs⟩ := h
  rw [allOf_eq_flatMap]
  exact fun m hm => List.mem_flatMap.2 ⟨n, hn, all_subset_of_mem_fills hs hm⟩

end PageTemplate.Node
