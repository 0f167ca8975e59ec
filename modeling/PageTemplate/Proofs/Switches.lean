import Mathlib.Data.List.TakeWhile
import PageTemplate.Proofs.Numbering

/-!
Switches and their cases. Switches are numbered in the order of the template, and a case has the number of the innermost
switch around it. A macro call keeps nothing but the fills for its slots, so the switch of a case in a fill may have
been left out. The main statement is `cases_belong_to_switches`.
-/

namespace PageTemplate

variable {k : Nat}

namespace Node

variable {ε : Type}
variable {above : List (Node ε)}
variable {is : List Nat}

def switchId? : Node ε → Option Int
  | .switch id _ _ => some id
  | _ => none

/-- The numbers of the switches of a node, outermost first. -/
def switchIds (n : Node ε) : List Int := n.all.filterMap switchId?

def isFill : Node ε → Bool
  | .fillSlot _ _ => true
  | _ => false

/-- Down from a node one comes to another below the nodes `above`, innermost first. -/
inductive Below : List (Node ε) → Node ε → Node ε → Prop where
  | here (n : Node ε) : Below [] n n
  | child {above : List (Node ε)} {m c n : Node ε} : c ∈ n.children → Below above m c → Below (above ++ [n]) m n

/-- The node that one comes to by way of the children with the given positions, with the nodes above it. -/
def descend (n : Node ε) : List Nat → Option (List (Node ε) × Node ε)
  | [] => some ([], n)
  | i :: is => n.children[i]?.bind fun c => (c.descend is).map fun p => (p.1 ++ [n], p.2)

theorem below_of_descend {n m : Node ε} (h : n.descend is = some (above, m)) : Below above m n := by
  induction is generalizing n above with
  | nil =>
    cases h
    exact .here _
  | cons i is ih =>
    obtain ⟨c, hc, h⟩ := Option.bind_eq_some_iff.1 h
    obtain ⟨p, hp, h⟩ := Option.map_eq_some_iff.1 h
    cases h
    exact .child (List.mem_of_getElem? hc) (ih hp)

/-- The number of the nearest switch among the nodes above another. -/
def nearestSwitch? (above : List (Node ε)) : Option Int := above.findSome? switchId?

/-- The number of the case that one comes to, and of the nearest switch above it. -/
def caseBelow? (n : Node ε) (is : List Nat) : Option (Int × Option Int) :=
  match n.descend is with
  | some (above, .case id _ _) => some (id, nearestSwitch? above)
  | _ => none

theorem exists_of_caseBelow? {n : Node ε} {id : Int} {near : Option Int} (h : n.caseBelow? is = some (id, near)) :
    ∃ above v body, Below above (.case id v body) n ∧ nearestSwitch? above = near := by
  unfold caseBelow? at h
  split at h
  · next above id' v body hdescend =>
    cases h
    exact ⟨above, v, body, below_of_descend hdescend, rfl⟩
  · cases h

/-- The nearest fill among the nodes above another is nearer than any switch. -/
def inFill (above : List (Node ε)) : Bool := (above.takeWhile fun m => m.switchId?.isNone).any isFill

@[simp] theorem nearestSwitch?_append_singleton (above : List (Node ε)) (n : Node ε) :
    nearestSwitch? (above ++ [n]) = (nearestSwitch? above).or n.switchId? := by
  simp [nearestSwitch?, List.findSome?_append]

theorem inFill_append (h : inFill above = true) (n : Node ε) : inFill (above ++ [n]) = true := by
  rw [inFill, List.any_eq_true] at h ⊢
  obtain ⟨m, hm, hfill⟩ := h
  refine ⟨m, ?_, hfill⟩
  rw [List.takeWhile_append]
  split
  · exact List.mem_append_left _ ((List.takeWhile_prefix _).subset hm)
  · exact hm

theorem inFill_of_nearestSwitch?_eq_none (h : nearestSwitch? above = none) {m : Node ε} (hm : m ∈ above)
    (hfill : m.isFill = true) : inFill above = true := by
  have hnone : ∀ m ∈ above, m.switchId?.isNone = true := by simpa [nearestSwitch?] using h
  rw [inFill, List.takeWhile_eq_self_iff.2 hnone]
  exact List.any_eq_true.2 ⟨m, hm, hfill⟩

theorem Below.mem_all {m n : Node ε} (h : Below above m n) (hm : m.isPresent = true) :
    m ∈ n.all := by
  induction h with
  | here n => exact mem_all_self hm
  | child hc _ ih => exact all_subset_of_mem_parts (children_subset_parts _ hc) (ih hm)

theorem Plain.switchIds {n : Node Expr} (h : n.Plain k) : n.switchIds = [] := by
  rw [Node.switchIds, List.filterMap_eq_nil_iff]
  intro m hm
  have hplain := (h m hm).1
  cases m <;> simp [isPlain, switchId?] at hplain ⊢

theorem Plain.not_below_case {n : Node Expr} (h : n.Plain k) {above : List (Node Expr)} {id : Int}
    {v : Option Expr} {body : Node Expr} : ¬ Below above (.case id v body) n := by
  intro hbelow
  have hplain := (h _ (hbelow.mem_all rfl)).1
  simp [isPlain] at hplain

end Node

namespace Builder

open Markup (ElementHead)
open Expression (Registry)

variable {a : Nat} {flags : List Bool} {id : Int} {ds : Directives} {r : Registry}
variable {flags' : List Bool} {x : Nat} {body : List (Node Expr)} {d : Directive} {stop : Option Markup.Tag}

/-! ### Which switches are kept -/

/-- How an element stands to the macro calls around it. -/
inductive Standing where
  /-- It is part of the program. -/
  | kept
  /-- It stands in a macro call that is part of the program, but in none of the fills. -/
  | between
  /-- It stands in a macro call that is not part of the program. -/
  | lost
  deriving DecidableEq

/-- How a fill stands, wherever its element does. -/
def Standing.filled : Standing → Standing
  | kept | between => kept
  | lost => lost

/-- How the content of a macro call stands. -/
def Standing.called : Standing → Standing
  | kept => between
  | between | lost => lost

mutual

/-- Which of the switches of a tree are part of its program, in the order of the template. -/
def keptSwitches (σ : Standing) : Markup.Node → List Bool
  | .text _ => []
  | .element head children _ =>
    match Directives.classify head.attributes [] with
    | .error _ => []
    | .ok (ds, _) =>
      let σ := if ds.has .fillSlot then σ.filled else σ
      let inner := if (call? ds).isSome then σ.called else σ
      if ds.has .switch then decide (σ = .kept) :: keptSwitchesOf inner children else keptSwitchesOf inner children

def keptSwitchesOf (σ : Standing) : List Markup.Node → List Bool
  | [] => []
  | n :: ns => keptSwitches σ n ++ keptSwitchesOf σ ns

end

mutual

theorem keptSwitches_lost (σ : Standing) :
    ∀ n : Markup.Node, keptSwitches .lost n = (keptSwitches σ n).map fun _ => false
  | .text _ => rfl
  | .element head children _ => by
    simp only [keptSwitches, Standing.filled, Standing.called, ite_self]
    split
    · rfl
    · split
      · rw [List.map_cons, ← keptSwitchesOf_lost]
        rfl
      · exact keptSwitchesOf_lost _ children

theorem keptSwitchesOf_lost (σ : Standing) :
    ∀ ns : List Markup.Node, keptSwitchesOf .lost ns = (keptSwitchesOf σ ns).map fun _ => false
  | [] => rfl
  | n :: ns => by
    rw [keptSwitchesOf, keptSwitchesOf, List.map_append, keptSwitches_lost σ n, keptSwitchesOf_lost σ ns]

end

theorem length_keptSwitchesOf (σ σ' : Standing) (ns : List Markup.Node) :
    (keptSwitchesOf σ ns).length = (keptSwitchesOf σ' ns).length := by
  simpa using congrArg List.length ((keptSwitchesOf_lost σ ns).symm.trans (keptSwitchesOf_lost σ' ns))

theorem eq_false_of_mem_keptSwitchesOf (ns : List Markup.Node) : ∀ b ∈ keptSwitchesOf .lost ns, b = false := by
  rw [keptSwitchesOf_lost .lost]
  simp

section Element

variable {head : ElementHead} {ds : Directives} {written : List Markup.RawAttribute}
  (hds : Directives.classify head.attributes [] = .ok (ds, written)) (children : List Markup.Node)
  (stop : Option Markup.Tag)
include hds

theorem keptSwitchesOf_kept_element : keptSwitchesOf .kept [.element head children stop] =
    if ds.has .switch then true :: keptSwitchesOf (if (call? ds).isSome then .between else .kept) children
    else keptSwitchesOf (if (call? ds).isSome then .between else .kept) children := by
  simp [keptSwitchesOf, keptSwitches, hds, Standing.filled, Standing.called]

theorem keptSwitchesOf_between_element : keptSwitchesOf .between [.element head children stop] =
    if ds.has .fillSlot then keptSwitchesOf .kept [.element head children stop]
    else if ds.has .switch then false :: keptSwitchesOf (if (call? ds).isSome then .lost else .between) children
    else keptSwitchesOf (if (call? ds).isSome then .lost else .between) children := by
  rw [keptSwitchesOf_kept_element hds]
  cases hfill : ds.has .fillSlot <;> simp [keptSwitchesOf, keptSwitches, hds, hfill, Standing.filled, Standing.called]

end Element

/-- The numbers of what is marked, counted from `a`. -/
def numbersFrom (a : Nat) : List Bool → List Int
  | [] => []
  | true :: flags => a :: numbersFrom (a + 1) flags
  | false :: flags => numbersFrom (a + 1) flags

@[simp] theorem numbersFrom_append (a : Nat) (flags flags' : List Bool) :
    numbersFrom a (flags ++ flags') = numbersFrom a flags ++ numbersFrom (a + flags.length) flags' := by
  induction flags generalizing a with
  | nil => rfl
  | cons b flags ih =>
    have hadd : a + 1 + flags.length = a + (b :: flags).length := by
      rw [List.length_cons]
      omega
    cases b <;> simp [numbersFrom, ih, hadd]

theorem mem_numbersFrom :
    id ∈ numbersFrom a flags ↔ ∃ i : Nat, flags[i]? = some true ∧ id = (a + i : Nat) := by
  induction flags generalizing a with
  | nil => simp [numbersFrom]
  | cons b flags ih =>
    have hshift : (∃ i : Nat, (b :: flags)[i]? = some true ∧ id = (a + i : Nat)) ↔
        b = true ∧ id = a ∨ ∃ i : Nat, flags[i]? = some true ∧ id = (a + 1 + i : Nat) := by
      constructor
      · rintro ⟨i, hi, rfl⟩
        cases i with
        | zero => exact .inl ⟨by simpa using hi, rfl⟩
        | succ i => exact .inr ⟨i, by simpa using hi, by omega⟩
      · rintro (⟨rfl, rfl⟩ | ⟨i, hi, rfl⟩)
        · exact ⟨0, rfl, rfl⟩
        · exact ⟨i + 1, by simpa using hi, by omega⟩
    rw [hshift, ← ih]
    cases b <;> simp [numbersFrom]

theorem nodup_numbersFrom (a : Nat) (flags : List Bool) : (numbersFrom a flags).Nodup := by
  induction flags generalizing a with
  | nil => exact .nil
  | cons b flags ih =>
    cases b with
    | false => exact ih (a + 1)
    | true =>
      refine List.nodup_cons.2 ⟨fun hmem => ?_, ih (a + 1)⟩
      obtain ⟨i, _, hi⟩ := mem_numbersFrom.1 hmem
      omega

theorem numbersFrom_eq_nil (a : Nat) (h : ∀ b ∈ flags, b = false) : numbersFrom a flags = [] := by
  rw [List.eq_nil_iff_forall_not_mem]
  intro id hid
  obtain ⟨i, hi, _⟩ := mem_numbersFrom.1 hid
  exact absurd (h true (List.mem_of_getElem? hi)) (by simp)

/-! ### Cases and the switches around them -/

/-- The number of something that is not marked. -/
def IsLeftOut (a : Nat) (flags : List Bool) (id : Int) : Prop := id ∈ numbersFrom a (flags.map (!·))

theorem IsLeftOut.cons (h : IsLeftOut (a + 1) flags id) (b : Bool) : IsLeftOut a (b :: flags) id := by
  cases b with
  | true => exact h
  | false => exact List.mem_cons_of_mem _ h

theorem isLeftOut_append :
    IsLeftOut a (flags ++ flags') id ↔ IsLeftOut a flags id ∨ IsLeftOut (a + flags.length) flags' id := by
  simp [IsLeftOut]

/-- How a case stands to the switches: the nearest above is its own; or there is none above, and its own is the
innermost open one; or it stands in a fill, and its own was left out. -/
inductive Belongs (sw : List Nat) (a : Nat) (flags : List Bool) (above : List (Node Expr)) (id : Int) : Prop where
  | near : Node.nearestSwitch? above = some id → Belongs sw a flags above id
  | free {x : Nat} : Node.nearestSwitch? above = none → sw.head? = some x → id = x → Belongs sw a flags above id
  | left : Node.inFill above = true → IsLeftOut a flags id → Belongs sw a flags above id

namespace Belongs

variable {sw : List Nat} {a : Nat} {flags : List Bool} {above : List (Node Expr)} {id : Int}

theorem of_imp {a' : Nat} (h : Belongs sw a flags above id)
    (hleft : IsLeftOut a flags id → IsLeftOut a' flags' id) : Belongs sw a' flags' above id := by
  cases h with
  | near hnear => exact .near hnear
  | free hnone hhead hid => exact .free hnone hhead hid
  | left hfill hid => exact .left hfill (hleft hid)

theorem under {n : Node Expr} (hn : n.switchId? = none) (h : Belongs sw a flags above id) :
    Belongs sw a flags (above ++ [n]) id := by
  have hnearest : Node.nearestSwitch? (above ++ [n]) = Node.nearestSwitch? above := by
    rw [Node.nearestSwitch?_append_singleton, hn, Option.or_none]
  cases h with
  | near hnear => exact .near (hnearest.trans hnear)
  | free hnone hhead hid => exact .free (hnearest.trans hnone) hhead hid
  | left hfill hid => exact .left (Node.inFill_append hfill n) hid

theorem under_switch (e : Expr) (n : Node Expr) (h : Belongs (a :: sw) (a + 1) flags above id) :
    Belongs sw a (true :: flags) (above ++ [.switch a e n]) id := by
  have hnearest := Node.nearestSwitch?_append_singleton above (.switch a e n)
  cases h with
  | near hnear => exact .near (by rw [hnearest, hnear]; rfl)
  | free hnone hhead hid =>
    cases Option.some.inj hhead
    exact .near (by rw [hnearest, hnone, hid]; rfl)
  | left hfill hid => exact .left (Node.inFill_append hfill _) (hid.cons true)

theorem leaveOut {n : Node Expr} (hn : n ∈ above) (hfill : n.isFill = true)
    (h : Belongs (a :: sw) (a + 1) flags above id) : Belongs sw a (false :: flags) above id := by
  cases h with
  | near hnear => exact .near hnear
  | free hnone hhead hid =>
    cases Option.some.inj hhead
    exact .left (Node.inFill_of_nearestSwitch?_eq_none hnone hn hfill) (hid ▸ List.mem_cons_self)
  | left hfill hid => exact .left hfill (hid.cons false)

end Belongs

/-- The switches of some nodes are numbered from `a` on, where the marked ones were kept. Each case belongs to a switch,
and to none below it. -/
structure Holds (sw : List Nat) (a : Nat) (flags : List Bool) (ns : List (Node Expr)) : Prop where
  switches : ns.flatMap Node.switchIds = numbersFrom a flags
  cases : ∀ n ∈ ns, ∀ above id v body, Node.Below above (.case id v body) n →
    id ∉ body.switchIds ∧ Belongs sw a flags above id

namespace Holds

variable {sw : List Nat} {a : Nat} {flags : List Bool} {ns : List (Node Expr)}
variable {n : Node Expr}

theorem nothing (h : ∀ b ∈ flags, b = false) : Holds sw a flags [] :=
  ⟨(numbersFrom_eq_nil a h).symm, by simp⟩

theorem plain {before after : List (Node Expr)} (h : Holds sw a flags ns)
    (hplain : ∀ m ∈ before ++ after, m.Plain k) : Holds sw a flags (before ++ (ns ++ after)) := by
  obtain ⟨hbefore, hafter⟩ := List.forall_mem_append.1 hplain
  have hnone : ∀ l : List (Node Expr), (∀ m ∈ l, m.Plain k) → l.flatMap Node.switchIds = [] :=
    fun l hl => List.flatMap_eq_nil_iff.2 fun m hm => (hl m hm).switchIds
  refine ⟨?_, fun n hn above id v body hbelow => ?_⟩
  · rw [List.flatMap_append, List.flatMap_append, hnone _ hbefore, hnone _ hafter, List.nil_append, List.append_nil,
      h.switches]
  · rcases List.mem_append.1 hn with hn | hn
    · exact ((hbefore n hn).not_below_case hbelow).elim
    · rcases List.mem_append.1 hn with hn | hn
      · exact h.cases n hn above id v body hbelow
      · exact ((hafter n hn).not_below_case hbelow).elim

theorem append {ns' : List (Node Expr)} (h : Holds sw a flags ns)
    (h' : Holds sw (a + flags.length) flags' ns') : Holds sw a (flags ++ flags') (ns ++ ns') := by
  refine ⟨by rw [List.flatMap_append, h.switches, h'.switches, numbersFrom_append], fun n hn above id v body hbelow => ?_⟩
  rcases List.mem_append.1 hn with hn | hn
  · obtain ⟨hbody, hbelongs⟩ := h.cases n hn above id v body hbelow
    exact ⟨hbody, hbelongs.of_imp fun hid => isLeftOut_append.2 (.inl hid)⟩
  · obtain ⟨hbody, hbelongs⟩ := h'.cases n hn above id v body hbelow
    exact ⟨hbody, hbelongs.of_imp fun hid => isLeftOut_append.2 (.inr hid)⟩

theorem around (hall : n.all = n :: Node.allOf ns) (hchildren : n.children ⊆ ns) (hswitch : n.switchId? = none)
    (hcase : ∀ id v body, n ≠ .case id v body) (h : Holds sw a flags ns) :
    Holds sw a flags [n] := by
  refine ⟨?_, fun n' hn' above id v body hbelow => ?_⟩
  · rw [← h.switches, List.flatMap_singleton, Node.switchIds, hall, List.filterMap_cons_none hswitch,
      Node.allOf_eq_flatMap, List.filterMap_flatMap]
    rfl
  · cases List.mem_singleton.1 hn'
    cases hbelow with
    | here => exact (hcase _ _ _ rfl).elim
    | child hc hbelow =>
      obtain ⟨hbody, hbelongs⟩ := h.cases _ (hchildren hc) _ _ _ _ hbelow
      exact ⟨hbody, hbelongs.under hswitch⟩

theorem switch (e : Expr) (h : Holds (a :: sw) (a + 1) flags [n]) :
    Holds sw a (true :: flags) [.switch a e n] := by
  have hids : Node.switchIds (.switch a e n) = (a : Int) :: n.switchIds := rfl
  refine ⟨?_, fun n' hn' above id v body hbelow => ?_⟩
  · have hswitches := h.switches
    rw [List.flatMap_singleton] at hswitches ⊢
    rw [hids, hswitches, numbersFrom]
  · cases List.mem_singleton.1 hn'
    cases hbelow with
    | child hc hbelow =>
      cases List.mem_singleton.1 (List.mem_filter.1 hc).1
      obtain ⟨hbody, hbelongs⟩ := h.cases _ List.mem_cons_self _ _ _ _ hbelow
      exact ⟨hbody, hbelongs.under_switch e n⟩

theorem leaveOut (hfills : ∀ n ∈ ns, n.isFill = true) (h : Holds (a :: sw) (a + 1) flags ns) :
    Holds sw a (false :: flags) ns := by
  refine ⟨h.switches, fun n hn above id v body hbelow => ?_⟩
  obtain ⟨hbody, hbelongs⟩ := h.cases n hn above id v body hbelow
  have hfill := hfills n hn
  refine ⟨hbody, hbelongs.leaveOut ?_ hfill⟩
  cases hbelow with
  | here => cases hfill
  | child => simp

theorem case (e : Option Expr) (hx : sw.head? = some x) (hlt : x < a) (h : Holds sw a flags [n]) :
    Holds sw a flags [.case x e n] := by
  have hids : Node.switchIds (.case x e n) = n.switchIds := rfl
  have hswitches := h.switches
  rw [List.flatMap_singleton] at hswitches
  refine ⟨by rw [List.flatMap_singleton, hids, hswitches], fun n' hn' above id v body hbelow => ?_⟩
  cases List.mem_singleton.1 hn'
  cases hbelow with
  | here =>
    refine ⟨fun hmem => ?_, .free rfl hx rfl⟩
    rw [hswitches] at hmem
    obtain ⟨i, _, hi⟩ := mem_numbersFrom.1 hmem
    omega
  | child hc hbelow =>
    cases List.mem_singleton.1 (List.mem_filter.1 hc).1
    obtain ⟨hbody, hbelongs⟩ := h.cases _ List.mem_cons_self _ _ _ _ hbelow
    exact ⟨hbody, hbelongs.under rfl⟩

end Holds

/-- The switches of some nodes and of the macros defined with them have numbers from `a` to `b`, no two the same, though
a macro shares its nodes with the template. -/
structure Registered (a b : Nat) (nodes : List (Node Expr)) (macros : List (Bytes × Node Expr)) : Prop where
  owned : ∃ owner : Int → Node Expr, ∀ m ∈ nodes ++ macros.flatMap (·.2.all), ∀ id, m.switchId? = some id →
    (a : Int) ≤ id ∧ id < b ∧ m = owner id
  nodup : ∀ q ∈ macros, q.2.switchIds.Nodup

namespace Registered

variable {a b : Nat} {nodes : List (Node Expr)} {macros : List (Bytes × Node Expr)}
variable {n : Node Expr} {nodes' : List (Node Expr)}

theorem nothing (a : Nat) : Registered a a [] [] := ⟨⟨default, by simp⟩, by simp⟩

theorem of_switches {macros' : List (Bytes × Node Expr)} (h : Registered a b nodes macros)
    (hsub : ∀ m ∈ nodes' ++ macros'.flatMap (·.2.all), ∀ id, m.switchId? = some id →
      m ∈ nodes ++ macros.flatMap (·.2.all))
    (hnodup : ∀ q ∈ macros', q.2.switchIds.Nodup) : Registered a b nodes' macros' := by
  obtain ⟨owner, howner⟩ := h.owned
  exact ⟨⟨owner, fun m hm id hid => howner m (hsub m hm id hid) id hid⟩, hnodup⟩

theorem of_nodes (h : Registered a b nodes macros)
    (hsub : ∀ m ∈ nodes', ∀ id, m.switchId? = some id → m ∈ nodes) : Registered a b nodes' macros := by
  refine h.of_switches (fun m hm id hid => ?_) h.nodup
  rcases List.mem_append.1 hm with hm | hm
  · exact List.mem_append_left _ (hsub m hm id hid)
  · exact List.mem_append_right _ hm

theorem cons (hn : n.switchId? = none) (h : Registered a b nodes macros) : Registered a b (n :: nodes) macros :=
  h.of_nodes fun m hm id hid => by
    rcases List.mem_cons.1 hm with rfl | hm
    · simp [hn] at hid
    · exact hm

theorem switch (e : Expr) (h : Registered (a + 1) b n.all macros) (hab : a < b) :
    Registered a b (Node.all (.switch a e n)) macros := by
  obtain ⟨owner, howner⟩ := h.owned
  refine ⟨⟨Function.update owner a (.switch a e n), fun m hm id hid => ?_⟩, h.nodup⟩
  rw [Node.all, List.cons_append] at hm
  rcases List.mem_cons.1 hm with rfl | hm
  · cases hid
    exact ⟨Int.le_refl _, by omega, by simp⟩
  · obtain ⟨hle, hlt, hm⟩ := howner m hm id hid
    exact ⟨by omega, hlt, by rw [Function.update_of_ne (by omega), hm]⟩

theorem define (name : Bytes) (hnodup : n.switchIds.Nodup) (h : Registered a b n.all macros) :
    Registered a b n.all ((name, n) :: macros) := by
  refine h.of_switches (fun m hm id _ => ?_) (List.forall_mem_cons.2 ⟨hnodup, h.nodup⟩)
  simp only [List.flatMap_cons, List.mem_append] at hm ⊢
  tauto

theorem append {c : Nat} {macros' : List (Bytes × Node Expr)} (hab : a ≤ b) (hbc : b ≤ c)
    (h : Registered a b nodes macros) (h' : Registered b c nodes' macros') :
    Registered a c (nodes ++ nodes') (macros' ++ macros) := by
  obtain ⟨owner, howner⟩ := h.owned
  obtain ⟨owner', howner'⟩ := h'.owned
  refine ⟨⟨fun id => if id < b then owner id else owner' id, fun m hm id hid => ?_⟩,
    List.forall_mem_append.2 ⟨h'.nodup, h.nodup⟩⟩
  have hcases : m ∈ nodes ++ macros.flatMap (·.2.all) ∨ m ∈ nodes' ++ macros'.flatMap (·.2.all) := by
    simp only [List.flatMap_append, List.mem_append] at hm ⊢
    tauto
  rcases hcases with hm | hm
  · obtain ⟨hle, hlt, hm⟩ := howner m hm id hid
    exact ⟨hle, by omega, by simp [hlt, ← hm]⟩
  · obtain ⟨hle, hlt, hm⟩ := howner' m hm id hid
    exact ⟨by omega, hlt, by simp [Int.not_lt.2 hle, ← hm]⟩

end Registered

/-! ### Elements -/

/-- The fills for slots that stand in some nodes. -/
def fillNodes (ns : List (Node Expr)) : List (Node Expr) := (Node.fillsOf ns).map fun s => .fillSlot s.1 s.2

theorem isFill_of_mem_fillNodes {ns : List (Node Expr)} : ∀ n ∈ fillNodes ns, n.isFill = true := by
  intro n hn
  obtain ⟨s, _, rfl⟩ := List.mem_map.1 hn
  rfl

@[simp] theorem fillNodes_append (ns ns' : List (Node Expr)) : fillNodes (ns ++ ns') = fillNodes ns ++ fillNodes ns' := by
  simp [fillNodes]

theorem fillNodes_of_plain {ns : List (Node Expr)} (h : ∀ n ∈ ns, n.Plain k) : fillNodes ns = [] := by
  induction ns with
  | nil => rfl
  | cons n ns ih =>
    obtain ⟨hn, hns⟩ := List.forall_mem_cons.1 h
    rw [← List.singleton_append, fillNodes_append, ih hns]
    simp [fillNodes, Node.fillsOf, hn.fills]

/-- The switches and cases of a node are in order, both where it is part of the program and where only its fills are. -/
structure Sited (sw : List Nat) (a b : Nat) (kept between : List Bool) (macros : List (Bytes × Node Expr))
    (n : Node Expr) : Prop where
  kept : Holds sw a kept [n]
  fills : Holds sw a between (fillNodes [n])
  macros : Registered a b n.all macros

namespace Sited

variable {sw : List Nat} {a b : Nat} {kept between : List Bool} {macros : List (Bytes × Node Expr)}
variable {n : Node Expr}

theorem around {c : Node Expr} (before after : List (Node Expr)) (hn : n.Around (before ++ c :: after))
    (hswitch : n.switchId? = none) (hcase : ∀ id v body, n ≠ .case id v body)
    (hplain : ∀ m ∈ before ++ after, m.Plain k) (h : Sited sw a b kept between macros c) :
    Sited sw a b kept between macros n := by
  refine ⟨(h.kept.plain hplain).around hn.all hn.children hswitch hcase, ?_, h.macros.of_nodes fun m hm id hid => ?_⟩
  · obtain ⟨hbefore, hafter⟩ := List.forall_mem_append.1 hplain
    have hfills : fillNodes [n] = fillNodes (before ++ c :: after) := by
      simp [fillNodes, Node.fillsOf, hn.fills]
    rw [hfills, fillNodes_append, ← List.singleton_append, fillNodes_append, fillNodes_of_plain hbefore,
      fillNodes_of_plain hafter, List.nil_append, List.append_nil]
    exact h.fills
  · rw [hn.all, Node.allOf_eq_flatMap, List.mem_cons, List.mem_flatMap] at hm
    rcases hm with rfl | ⟨c', hc', hm⟩
    · rw [hswitch] at hid
      cases hid
    · have hnone : c'.Plain k → False := by
        intro hc'
        have hplain := (hc' m hm).1
        cases m <;> simp [Node.isPlain, Node.switchId?] at hplain hid
      simp only [List.mem_append, List.mem_cons] at hc'
      rcases hc' with hc' | rfl | hc'
      · exact (hnone (hplain c' (List.mem_append_left _ hc'))).elim
      · exact hm
      · exact (hnone (hplain c' (List.mem_append_right _ hc'))).elim

theorem ordinary : Ordinary fun _ => Sited sw a b kept between macros where
  mono _ h := h
  around {k n c} before after hordinary hn _ hplain h := by
    refine around before after hn ?_ (fun id v body heq => ?_) hplain h
    · cases n <;> simp [Node.isOrdinary, Node.switchId?] at hordinary ⊢
    · subst heq
      cases hordinary
  substitution {k e kept'} raw translate _ h := by
    have hcontent : (Node.content e raw translate).Plain (e.id + 1) := .leaf rfl rfl (by simp [Node.reads])
    refine around (k := 0) [] [] (.body rfl rfl rfl) rfl nofun (by simp) ?_
    exact around [] [_] (Node.around_condition _ _ _) rfl nofun (by simpa using hcontent) h
  omission {k e} name start body stop he hstart h hstop := by
    have hplain : ∀ {m : Node Expr}, m.Plain k → (Node.unlessOmitted e m).Plain (e.id + 1) := fun hm =>
      .unlessOmitted (Nat.lt_succ_self _) (hm.mono (Nat.le_succ_of_le he))
    refine around (k := 0) [] [] (.body rfl rfl rfl) rfl nofun (by simp) ?_
    exact around [_] [_] (Node.around_element _ _ _ _) rfl nofun
      (by simpa using ⟨hplain hstart, hplain hstop⟩) h

theorem call {lost : List Bool} (hall : n.all = n :: Node.allOfSlots (Node.fillsOf body))
    (hchildren : n.children = fillNodes body) (hfills : n.fills = []) (hswitch : n.switchId? = none)
    (hcase : ∀ id v body, n ≠ .case id v body) (hlost : ∀ b ∈ lost, b = false)
    (h : Holds sw a between (fillNodes body)) (hmacros : Registered a b (Node.allOf body) macros) :
    Sited sw a b between lost macros n := by
  have hslots : Node.allOfSlots (Node.fillsOf body) = Node.allOf (fillNodes body) := by
    rw [Node.allOfSlots_eq_flatMap, Node.allOf_eq_flatMap]
    rfl
  refine ⟨h.around (hall.trans (by rw [hslots])) (by rw [hchildren]; exact List.Subset.refl _) hswitch hcase, ?_, ?_⟩
  · have hnone : fillNodes [n] = [] := by simp [fillNodes, Node.fillsOf, hfills]
    rw [hnone]
    exact .nothing hlost
  · refine hmacros.of_nodes fun m hm id hid => ?_
    rw [hall, hslots, Node.allOf_eq_flatMap, List.mem_cons, List.mem_flatMap] at hm
    rcases hm with rfl | ⟨f, hf, hm⟩
    · rw [hswitch] at hid
      cases hid
    · obtain ⟨s, hs, rfl⟩ := List.mem_map.1 hf
      exact Node.all_subset_of_mem_fillsOf hs hm

theorem switch (e : Expr) (hab : a < b) (h : Sited (a :: sw) (a + 1) b kept between macros n) :
    Sited sw a b (true :: kept) (false :: between) macros (.switch a e n) := by
  have hfills : fillNodes [.switch a e n] = fillNodes [n] := by simp [fillNodes, Node.fillsOf, Node.fills]
  refine ⟨h.kept.switch e, ?_, h.macros.switch e hab⟩
  rw [hfills]
  exact h.fills.leaveOut isFill_of_mem_fillNodes

theorem case (e : Option Expr) (hx : sw.head? = some x) (hlt : x < a)
    (h : Sited sw a b kept between macros n) : Sited sw a b kept between macros (.case x e n) := by
  refine ⟨h.kept.case e hx hlt, ?_, h.macros.cons rfl⟩
  have hfills : fillNodes [.case x e n] = fillNodes [n] := by simp [fillNodes, Node.fillsOf, Node.fills]
  rw [hfills]
  exact h.fills

/-- A fill is kept as it is where only fills are. -/
theorem fillSlot (name : Bytes) (h : Sited sw a b kept between macros n) :
    Sited sw a b kept kept macros (.fillSlot name n) := by
  have hn : Holds sw a kept [.fillSlot name n] :=
    h.kept.around (by simp [Node.all, Node.allOf]) (List.filter_subset_self _) rfl nofun
  exact ⟨hn, hn, h.macros.cons rfl⟩

theorem define (name : Bytes) (h : Sited sw a b kept between macros n) :
    Sited sw a b kept between ((name, n) :: macros) (.macroDef name n) := by
  have hnodup : n.switchIds.Nodup := by
    have hswitches := h.kept.switches
    rw [List.flatMap_singleton] at hswitches
    rw [hswitches]
    exact nodup_numbersFrom a kept
  have hdef : Sited sw a b kept between macros (.macroDef name n) :=
    ordinary.silent (k := 0) rfl (.body rfl rfl rfl) rfl h
  exact ⟨hdef.kept, hdef.fills, (h.macros.define name hnodup).cons rfl⟩

end Sited

theorem sited_of_elementOrCall {head : ElementHead} {written : List Markup.RawAttribute}
    {n : Node Expr} {st st' : State} {sw : List Nat} {b : Nat} {children : List Markup.Node}
    {macros : List (Bytes × Node Expr)} (hkept : Holds sw a (keptSwitchesOf .kept children) body)
    (hfills : Holds sw a (keptSwitchesOf .between children) (fillNodes body))
    (hmacros : Registered a b (Node.allOf body) macros)
    (h : (elementOrCall r head stop ds written body).run st = .ok (n, st')) :
    (st'.nextSwitch = st.nextSwitch ∧ st'.macros = st.macros) ∧
      Sited sw a b (keptSwitchesOf (if (call? ds).isSome then .between else .kept) children)
        (keptSwitchesOf (if (call? ds).isSome then .lost else .between) children) macros n := by
  unfold elementOrCall at h
  split at h
  · next hcall =>
    rw [hcall]
    have hlost := eq_false_of_mem_keptSwitchesOf children
    rcases exists_of_macroCall h with ⟨name, calls, rfl, rfl⟩ | ⟨e, rfl, _, rfl⟩
    · exact ⟨⟨rfl, rfl⟩, .call rfl rfl rfl rfl nofun hlost hfills hmacros⟩
    · exact ⟨⟨rfl, rfl⟩, .call rfl rfl rfl rfl nofun hlost hfills hmacros⟩
  · next hcall =>
    rw [hcall]
    have hsequence : Sited sw a b (keptSwitchesOf .kept children) (keptSwitchesOf .between children) macros
        (.sequence body) := by
      have haround := Node.around_sequence body
      refine ⟨hkept.around haround.all haround.children rfl nofun, ?_, hmacros.cons rfl⟩
      have hnodes : fillNodes [.sequence body] = fillNodes body := by simp [fillNodes, Node.fillsOf, Node.fills]
      rw [hnodes]
      exact hfills
    obtain ⟨_, _, rfl, hn⟩ := Sited.ordinary.element (k := 0) r ds head stop written hsequence st n st' (Nat.zero_le _) h
    exact ⟨⟨rfl, rfl⟩, hn⟩

/-- The switches and cases of what is built from a tree are in order. -/
structure Numbered (sw : List Nat) (tree : List Markup.Node) (st : State) (ns : List (Node Expr)) (st' : State) : Prop where
  next : st'.nextSwitch = st.nextSwitch + (keptSwitchesOf .kept tree).length
  kept : Holds sw st.nextSwitch (keptSwitchesOf .kept tree) ns
  fills : Holds sw st.nextSwitch (keptSwitchesOf .between tree) (fillNodes ns)
  macros : ∃ macros, st'.macros = macros ++ st.macros ∧
    Registered st.nextSwitch st'.nextSwitch (Node.allOf ns) macros

namespace Numbered

variable {sw : List Nat} {st st' : State}
variable {m : Node Expr}

theorem nil : Numbered sw [] st [] st :=
  ⟨rfl, .nothing (by simp [keptSwitchesOf]), .nothing (by simp [keptSwitchesOf]), [], rfl, .nothing st.nextSwitch⟩

theorem text (t : Markup.Token) {n : Nat} (hm : m.Plain k) :
    Numbered sw [.text t] st [m] { st with nextExpr := n } := by
  have hplain : ∀ m' ∈ [] ++ [m], m'.Plain k := by simpa using hm
  have hnone : Holds sw st.nextSwitch [] ([] ++ ([] ++ [m])) := (Holds.nothing (by simp)).plain hplain
  have hfills : fillNodes [m] = [] := fillNodes_of_plain hplain
  refine ⟨rfl, hnone, ?_, [], rfl, (Registered.nothing _).of_nodes fun m' hm' id hid => ?_⟩
  · rw [hfills]
    exact .nothing (by simp [keptSwitchesOf, keptSwitches])
  have hids := hm.switchIds
  rw [Node.switchIds, List.filterMap_eq_nil_iff] at hids
  rw [Node.allOf_eq_flatMap, List.flatMap_singleton] at hm'
  rw [hids m' hm'] at hid
  cases hid

theorem cons {n : Markup.Node} {tree : List Markup.Node} {ms : List (Node Expr)} {st₁ : State}
    (h : Numbered sw [n] st [m] st₁) (h' : Numbered sw tree st₁ ms st') :
    Numbered sw (n :: tree) st (m :: ms) st' := by
  have hflags : ∀ σ, keptSwitchesOf σ (n :: tree) = keptSwitchesOf σ [n] ++ keptSwitchesOf σ tree :=
    fun σ => by simp [keptSwitchesOf]
  have hnext := h.next
  have hnext' := h'.next
  have hbetween : st₁.nextSwitch = st.nextSwitch + (keptSwitchesOf .between [n]).length := by
    rw [hnext, length_keptSwitchesOf]
  obtain ⟨macros, hst₁, hmacros⟩ := h.macros
  obtain ⟨macros', hst', hmacros'⟩ := h'.macros
  refine ⟨?_, ?_, ?_, macros' ++ macros, by rw [hst', hst₁, List.append_assoc], ?_⟩
  · rw [hflags, List.length_append]
    omega
  · rw [hflags]
    exact h.kept.append (hnext ▸ h'.kept)
  · have hfills : fillNodes (m :: ms) = fillNodes [m] ++ fillNodes ms := fillNodes_append [m] ms
    rw [hflags, hfills]
    exact h.fills.append (hbetween ▸ h'.fills)
  · have hall : Node.allOf (m :: ms) = Node.allOf [m] ++ Node.allOf ms := by simp [Node.allOf]
    rw [hall]
    exact hmacros.append (by omega) (by omega) hmacros'

end Numbered

/-- The marks with that of an element before them, if there is a switch on it. -/
def marked (ds : Directives) (b : Bool) (flags : List Bool) : List Bool := if ds.has .switch then b :: flags else flags

theorem sited_of_wrap {head : ElementHead} {written : List Markup.RawAttribute}
    {whitespace : Bytes} {case : Nat} {content n : Node Expr} {st st' : State} {sw : List Nat} {b : Nat}
    {kept between : List Bool} {macros : List (Bytes × Node Expr)}
    (hcase : ∀ t, ds.clause? .case = some t → sw.head? = some case) (hsw : ∀ y ∈ sw, y < x)
    (hb : ds.has .switch = true → x < b)
    (hcontent : Sited (if ds.has .switch then x :: sw else sw) (if ds.has .switch then x + 1 else x) b kept between
      macros content)
    (h : (wrap r head stop ds written whitespace case x content).run st = .ok (n, st')) :
    st'.nextSwitch = st.nextSwitch ∧ ∃ macros', st'.macros = macros' ++ st.macros ∧
      Sited sw x b (marked ds true kept) (if ds.has .fillSlot then marked ds true kept else marked ds false between)
        (macros' ++ macros) n := by
  rw [wrap, run_bind_eq_ok] at h
  obtain ⟨n₁, st₁, hcontrolled, h⟩ := h
  rw [run_bind_eq_ok] at h
  obtain ⟨n₂, st₂, hdefine, henclosed⟩ := h
  let G := Sited sw x b (marked ds true kept) (marked ds false between) macros
  let G' := Sited sw x b (marked ds true kept)
    (if ds.has .fillSlot then marked ds true kept else marked ds false between) macros
  have hn₁ : Draws 0 (fun _ => G') (controlled r ds whitespace case x content) := by
    have hordinary : Ordinary fun _ => G := Sited.ordinary
    refine hordinary.controlled r ds whitespace case x ?_ ?_ ?_ ?_ ?_
    · intro t ht e _ _ _
      have hhas : ds.has .switch = true := has_eq_true_iff.2 ⟨t, ht⟩
      simp only [G, marked, hhas, if_true] at hcontent ⊢
      exact hcontent.switch e (hb hhas)
    · intro ht
      have hhas : ds.has .switch = false := has_eq_false_iff.2 ht
      simpa [G, marked, hhas] using hcontent
    · intro t ht _ m e _ hm
      have hhead := hcase t ht
      exact hm.case (some e) hhead (hsw case (List.mem_of_mem_head? hhead))
    · intro t ht _ m hm
      have hhas : ds.has .fillSlot = true := has_eq_true_iff.2 ⟨t, ht⟩
      simp only [G', hhas, if_true]
      exact hm.fillSlot _
    · intro ht _ m hm
      have hhas : ds.has .fillSlot = false := has_eq_false_iff.2 ht
      simpa [G', hhas] using hm
  obtain ⟨_, _, rfl, hn₁⟩ := hn₁ st n₁ st₁ (Nat.zero_le _) hcontrolled
  obtain ⟨macros', hst₂, hn₂⟩ : ∃ macros', st₂ = { st with nextExpr := st₂.nextExpr, macros := macros' ++ st.macros } ∧
      Sited sw x b (marked ds true kept) (if ds.has .fillSlot then marked ds true kept else marked ds false between)
        (macros' ++ macros) n₂ := by
    rcases exists_of_defining hdefine with ⟨rfl, rfl⟩ | ⟨name, -, rfl, rfl⟩
    · exact ⟨[], rfl, hn₁⟩
    · exact ⟨[(name, n₁)], rfl, hn₁.define name⟩
  obtain ⟨_, _, rfl, hn⟩ := Sited.ordinary.enclosed (k := 0) r ds head stop written hn₂ st₂ n st' (Nat.zero_le _) henclosed
  rw [hst₂]
  exact ⟨rfl, macros', rfl, hn⟩

mutual

theorem numbered_of_node {s : Surrounding} {whitespace : Bytes} {p : Node Expr × Bytes} {st st' : State}
    (hs : ∀ x ∈ s.switches, x < st.nextSwitch) :
    ∀ {n : Markup.Node}, (node s whitespace n).run st = .ok (p, st') → Numbered s.switches [n] st [p.1] st'
  | .text t, h => by
    rw [node, run_bind_eq_ok] at h
    obtain ⟨m, st₁, hm, h⟩ := h
    cases h
    obtain ⟨_, _, rfl, hplain⟩ := draws_textNode s.registry t 0 st m st' (Nat.zero_le _) hm
    exact .text t hplain
  | .element head children stop, h => by
    obtain ⟨ds, written, case, st₁, body, st₂, content, st₃, st₄, hds, hcase, hst₁, hbody, hcontent, hwrap, hst'⟩ :=
      exists_of_node h
    have hx : st₁.nextSwitch = if ds.has .switch then st.nextSwitch + 1 else st.nextSwitch := by
      rw [hst₁.nextSwitch]
      split <;> rfl
    have hs₁ : ∀ y ∈ (inside s ds st.nextSwitch).switches, y < st₁.nextSwitch := by
      intro y hy
      rw [hx]
      simp only [inside] at hy
      split at hy
      · next hhas =>
        rw [if_pos hhas]
        rcases List.mem_cons.1 hy with rfl | hy
        · exact Nat.lt_succ_self _
        · exact Nat.lt_succ_of_lt (hs y hy)
      · next hhas =>
        rw [if_neg hhas]
        exact hs y hy
    have hchildren := numbered_of_nodes hs₁ hbody
    obtain ⟨macros, hst₂, hmacros⟩ := hchildren.macros
    obtain ⟨⟨hnext₃, hmacros₃⟩, hsited⟩ := sited_of_elementOrCall hchildren.kept hchildren.fills hmacros hcontent
    have hnext := hchildren.next
    rw [hx] at hsited hnext
    have hb : ds.has .switch = true → st.nextSwitch < st₂.nextSwitch := by
      intro hhas
      rw [if_pos hhas] at hnext
      omega
    obtain ⟨hnext₄, macros', hmacros₄, hn⟩ := sited_of_wrap hcase hs hb hsited hwrap
    have hlength := length_keptSwitchesOf (if (call? ds).isSome then .between else .kept) .kept children
    have hkept := keptSwitchesOf_kept_element hds children stop
    have hst₀ : st₁.macros = st.macros := by
      rw [hst₁.macros]
      split <;> rfl
    refine ⟨?_, ?_, ?_, macros' ++ macros, ?_, ?_⟩
    · rw [hst'.nextSwitch, hnext₄, hnext₃, hnext, hkept]
      split
      · rw [List.length_cons, hlength]
        omega
      · rw [hlength]
    · rw [hkept]
      exact hn.kept
    · rw [keptSwitchesOf_between_element hds, hkept]
      exact hn.fills
    · rw [hst'.macros, hmacros₄, hmacros₃, hst₂, hst₀, List.append_assoc]
    · rw [hst'.nextSwitch, hnext₄, hnext₃, Node.allOf_eq_flatMap, List.flatMap_singleton]
      exact hn.macros

theorem numbered_of_nodes {s : Surrounding} {whitespace : Bytes} {ns : List (Node Expr)} {st st' : State}
    (hs : ∀ x ∈ s.switches, x < st.nextSwitch) :
    ∀ {tree : List Markup.Node}, (nodes s whitespace tree).run st = .ok (ns, st') → Numbered s.switches tree st ns st'
  | [], h => by
    rw [nodes] at h
    cases h
    exact .nil
  | n :: tree, h => by
    rw [nodes, run_bind_eq_ok] at h
    obtain ⟨⟨m, whitespace'⟩, st₁, hm, h⟩ := h
    dsimp only at h
    rw [run_bind_eq_ok] at h
    obtain ⟨ms, st₂, hms, h⟩ := h
    cases h
    have hn := numbered_of_node hs hm
    have hs₁ : ∀ x ∈ s.switches, x < st₁.nextSwitch := by
      intro x hx
      have hlt := hs x hx
      have hnext := hn.next
      omega
    exact hn.cons (numbered_of_nodes hs₁ hms)

end

/-- Switches and cases of a module. The numbers of the switches in the body of a module are pairwise distinct, as are
those in each of its macros, and two switches with one number are one node; the switches of the body are those of the
template that do not stand between a macro call and the fills for its slots. A case in the body has the number of the
nearest switch above it; only if a fill is nearer than any switch, it may have the number of a left out switch instead.
It never has the number of a switch below it. -/
theorem cases_belong_to_switches {r : Registry} {filename source : Bytes} {tree : List Markup.Node} {m : Module}
    (h : build r filename source tree = .ok m) :
    (∀ n ∈ m.body :: m.macros.map (·.2), n.switchIds.Nodup) ∧
    (∀ n ∈ m.body :: m.macros.map (·.2), ∀ n' ∈ m.body :: m.macros.map (·.2), ∀ S ∈ n.all, ∀ S' ∈ n'.all, ∀ id,
      S.switchId? = some id → S'.switchId? = some id → S = S') ∧
    (∀ id, id ∈ m.body.switchIds ↔ ∃ i : Nat, id = i ∧ (keptSwitchesOf .kept tree)[i]? = some true) ∧
    ∀ above id v body, Node.Below above (.case id v body) m.body →
      id ∉ body.switchIds ∧
      (Node.nearestSwitch? above = some id ∨
        Node.inFill above = true ∧ ∃ i : Nat, id = i ∧ (keptSwitchesOf .kept tree)[i]? = some false) := by
  obtain ⟨ns, st, hns, hbody, hreverse⟩ := exists_nodes_of_build h
  replace hns : Numbered [] tree {} ns st := numbered_of_nodes (by simp) hns
  obtain ⟨macros, hst, hmacros⟩ := hns.macros
  have hmem : ∀ q, q ∈ m.macros ↔ q ∈ macros := by
    intro q
    rw [hreverse, hst, List.mem_reverse, List.append_nil]
  have haround := Node.around_sequence ns
  have hsequence := hns.kept.around haround.all haround.children rfl nofun
  rw [← hbody] at hsequence
  have hids := hsequence.switches
  rw [List.flatMap_singleton] at hids
  refine ⟨?_, ?_, ?_, ?_⟩
  · refine List.forall_mem_cons.2 ⟨?_, List.forall_mem_map.2 fun q hq => hmacros.nodup q ((hmem q).1 hq)⟩
    rw [hids]
    exact nodup_numbersFrom _ _
  · have hnodes : ∀ n ∈ m.body :: m.macros.map (·.2), ∀ S ∈ n.all, ∀ id, S.switchId? = some id →
        S ∈ Node.allOf ns ++ macros.flatMap (·.2.all) := by
      refine List.forall_mem_cons.2 ⟨fun S hS id hid => ?_, List.forall_mem_map.2 fun q hq S hS id _ => ?_⟩
      · rw [hbody] at hS
        rcases List.mem_cons.1 hS with rfl | hS
        · cases hid
        · exact List.mem_append_left _ hS
      · exact List.mem_append_right _ (List.mem_flatMap.2 ⟨q, (hmem q).1 hq, hS⟩)
    obtain ⟨owner, howner⟩ := hmacros.owned
    intro n hn n' hn' S hS S' hS' id hid hid'
    exact (howner S (hnodes n hn S hS id hid) id hid).2.2.trans (howner S' (hnodes n' hn' S' hS' id hid') id hid').2.2.symm
  · intro id
    rw [hids, mem_numbersFrom]
    simp [and_comm]
  · intro above id v body hbelow
    obtain ⟨hnot, hbelongs⟩ := hsequence.cases _ List.mem_cons_self above id v body hbelow
    refine ⟨hnot, ?_⟩
    cases hbelongs with
    | near hnear => exact .inl hnear
    | free _ hhead _ => cases hhead
    | left hfill hid =>
      obtain ⟨i, hi, rfl⟩ := mem_numbersFrom.1 hid
      exact .inr ⟨hfill, i, by simp, by simpa using hi⟩

/-- A switch on a fill is kept, inside that of the macro call, so its case has its number. -/
theorem cases_belong_to_switches_in_fill :
    let r := Registry.initial (utf8 "expr") []
    let source := utf8 ("<p metal:define-macro=\"m\"><b metal:define-slot=\"s\"/></p><div tal:switch=\"1\" " ++
      "metal:use-macro=\"macros.m\"><b metal:fill-slot=\"s\" tal:switch=\"2\"><i tal:case=\"2\"/></b></div>")
    ∃ tree m above v body, Markup.parse source [] = .ok tree ∧ build r [] source tree = .ok m ∧
      m.body.switchIds = [0, 1] ∧ Node.Below above (.case 1 v body) m.body ∧ Node.nearestSwitch? above = some 1 := by
  intro r source
  obtain ⟨tree, m, hparse, hbuild, hm⟩ := exists_module_of_toOption r source
    (fun m => (m.body.switchIds, (m.body.caseBelow? [1, 0, 0, 0, 0, 1, 0]).map (·.1))) (a := ([0, 1], some 1))
    (by decide +kernel)
  obtain ⟨hids, hcase⟩ := Prod.mk.inj hm
  obtain ⟨⟨id, near⟩, hcase, rfl⟩ := Option.map_eq_some_iff.1 hcase
  obtain ⟨above, v, body, hbelow, _⟩ := Node.exists_of_caseBelow? hcase
  have hflags : ((Markup.parse source []).toOption.map (keptSwitchesOf .kept)) = some [true, true] := by decide +kernel
  rw [hparse] at hflags
  obtain ⟨_, _, _, hcases⟩ := cases_belong_to_switches hbuild
  refine ⟨tree, m, above, v, body, hparse, hbuild, hids, hbelow, ?_⟩
  rcases (hcases above _ v body hbelow).2 with hnear | ⟨_, i, hi, hleft⟩
  · exact hnear
  · rw [Option.some.inj hflags, ← Int.ofNat.inj hi] at hleft
    cases hleft

/-- A switch in a macro call outside the fill is left out; its case in the fill keeps its number, though the nearest
switch is that of the call. -/
theorem case_of_switch_left_out :
    let r := Registry.initial (utf8 "expr") []
    let source := utf8 ("<p metal:define-macro=\"m\"><b metal:define-slot=\"s\"/></p><div tal:switch=\"1\" " ++
      "metal:use-macro=\"macros.m\"><p tal:switch=\"2\"><b metal:fill-slot=\"s\"><i tal:case=\"1\"/></b></p></div>")
    ∃ tree m above v body, Markup.parse source [] = .ok tree ∧ build r [] source tree = .ok m ∧
      m.body.switchIds = [0] ∧ Node.Below above (.case 1 v body) m.body ∧ Node.nearestSwitch? above = some 0 := by
  intro r source
  obtain ⟨tree, m, hparse, hbuild, hm⟩ := exists_module_of_toOption r source
    (fun m => (m.body.switchIds, m.body.caseBelow? [1, 0, 0, 0, 1, 0])) (a := ([0], some (1, some 0))) (by decide +kernel)
  obtain ⟨hids, hcase⟩ := Prod.mk.inj hm
  obtain ⟨above, v, body, hbelow, hnear⟩ := Node.exists_of_caseBelow? hcase
  exact ⟨tree, m, above, v, body, hparse, hbuild, hids, hbelow, hnear⟩

end Builder

end PageTemplate
