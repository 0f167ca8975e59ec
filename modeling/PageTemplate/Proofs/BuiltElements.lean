import PageTemplate.Proofs.ValueClauses

/-!
Elements with what they are built to. `Built` is a node of a template with its part of the program, and with the same for
all below it. What stands in an element becomes part of what the element is built to, unless it is a macro call: that
keeps only the fills that it collects, those in it outside of other calls and of other fills. `Stays` follows what is
kept down from the whole template.
-/

namespace PageTemplate.Builder

open Markup (RawAttribute ElementHead)
open Expression (Registry)

/-- A node of a template with what it was built to: the element or macro call in its place, and that with the directives
around it. A text has no head. -/
inductive Built where
  | mk (head : Option ElementHead) (ds : Directives) (children : List Built) (content result : Node Expr)

namespace Built

def head? : Built → Option ElementHead
  | mk head _ _ _ _ => head

def ds : Built → Directives
  | mk _ ds _ _ _ => ds

def children : Built → List Built
  | mk _ _ children _ _ => children

def content : Built → Node Expr
  | mk _ _ _ content _ => content

def result : Built → Node Expr
  | mk _ _ _ _ result => result

def isFill (b : Built) : Bool := b.ds.has .fillSlot

def isCall (b : Built) : Bool := (call? b.ds).isSome

/-- What stands at the end of a path, which has the position of a child at each step. -/
def descend : Built → List Nat → Option Built
  | b, [] => some b
  | b, i :: p => b.children[i]?.bind fun c => c.descend p

/-- The element fills a slot with a node, which is the fill that it is built to. -/
def Fills (b : Built) (s : Bytes × Node Expr) : Prop :=
  (∃ t, b.ds.clause? .fillSlot = some t ∧ s.1 = Text.trim t.value) ∧ b.result.fills = [s]

/-- The element is built to a call with these fills. -/
def Calls (b : Built) (slots : List (Bytes × Node Expr)) : Prop :=
  (∃ name extend, b.content = .useInternal name slots extend) ∨ ∃ e extend, b.content = .useExternal e slots extend

/-- The path ends on the way down by another one, neither where that begins nor where it ends. -/
def Between (x p : List Nat) : Prop := x <+: p ∧ x ≠ [] ∧ x ≠ p

/-- Down from an element by the path stands a fill, with no call and no other fill on the way. -/
structure Reaches (b : Built) (p : List Nat) : Prop where
  below : p ≠ []
  fill : ∃ c, b.descend p = some c ∧ c.isFill = true
  between : ∀ x, Between x p → ∀ c, b.descend x = some c → c.isFill = false ∧ c.isCall = false

end Built

mutual

/-- The program of a list of nodes, with that of every node in it. -/
def builtNodes (s : Surrounding) : Bytes → List Markup.Node → Build (List Built)
  | _, [] => return []
  | whitespace, n :: ns => do
    let (b, whitespace) ← builtNode s whitespace n
    return b :: (← builtNodes s whitespace ns)

def builtNode (s : Surrounding) (whitespace : Bytes) : Markup.Node → Build (Built × Bytes)
  | .text t => do
    let n ← textNode s.registry t
    return (.mk none [] [] n n, indentation t)
  | .element head children stop => do
    let (ds, written) ← Directives.classify head.attributes []
    ds.checkExclusions (Markup.Namespace.isDirective head.key.space)
    let numbers ← enter s ds
    let body ← builtNodes (inside s ds numbers.2) [] children
    let content ← elementOrCall s.registry head stop ds written (body.map Built.result)
    let (result, whitespace) ← surround s.registry whitespace head stop ds written numbers content
    return (.mk head ds body content result, whitespace)

end

mutual

theorem nodes_eq (s : Surrounding) : ∀ (whitespace : Bytes) (ns : List Markup.Node),
    nodes s whitespace ns = List.map Built.result <$> builtNodes s whitespace ns
  | _, [] => by simp [nodes, builtNodes]
  | whitespace, n :: ns => by simp [nodes, builtNodes, node_eq s whitespace n, nodes_eq s _ ns]

theorem node_eq (s : Surrounding) (whitespace : Bytes) : ∀ n : Markup.Node,
    node s whitespace n = (fun p => (p.1.result, p.2)) <$> builtNode s whitespace n
  | .text t => by simp [node, builtNode, Built.result]
  | .element head children stop => by simp [node, builtNode, enter, surround, nodes_eq _ _ children, Built.result]

end

/-! ### The steps of an element -/

/-- What is put around a node keeps its fills and all that stands in it. -/
theorem ordinary_holds (F : List (Bytes × Node Expr)) (N : List (Node Expr)) :
    Ordinary fun _ n => n.fills = F ∧ N ⊆ n.all where
  mono _ h := h
  around {k n c} before after _ haround _ hplain hc := by
    -- The tags and texts beside the node have no fills of their own.
    have hnil : ∀ ns : List (Node Expr), (∀ m ∈ ns, ∃ k, m.Plain k) → ns.flatMap Node.fills = [] := fun ns hns =>
      List.flatMap_eq_nil_iff.2 fun m hm => (hns m hm).elim fun _ h => h.fills
    rw [List.forall_mem_append] at hplain
    constructor
    · rw [haround.fills, Node.fillsOf_eq_flatMap, List.flatMap_append, List.flatMap_cons, hc.1,
        hnil before fun m hm => ⟨_, hplain.1 m hm⟩, hnil after fun m hm => ⟨_, hplain.2 m hm⟩]
      simp
    · intro m hm
      rw [haround.all, Node.allOf_eq_flatMap]
      exact List.mem_cons_of_mem _ (List.mem_flatMap.2 ⟨c, by simp, hc.2 hm⟩)
  substitution _ _ _ h := by
    refine ⟨by simpa [Node.substitution, Node.fills] using h.1, fun m hm => ?_⟩
    simp [Node.substitution, Node.all, h.2 hm]
  omission := by
    intro k e name start body stop hk hstart hbody hstop
    have hmono := Nat.le_succ_of_le hk
    have hstart := ((hstart.mono hmono).unlessOmitted (Nat.lt_succ_self _)).fills
    have hstop := ((hstop.mono hmono).unlessOmitted (Nat.lt_succ_self _)).fills
    refine ⟨by simp [Node.omission, Node.fills, hstart, hstop, hbody.1], fun m hm => ?_⟩
    simp [Node.omission, Node.all, hbody.2 hm]

section Steps

variable {r : Registry} {head : ElementHead} {stop : Option Markup.Tag} {ds : Directives} {written : List RawAttribute}
  {st st' : State}

/-- The directives around an element keep it and its fills, unless it is a fill itself. -/
theorem holds_of_wrap {whitespace : Bytes} {case switchId : Nat} {n result : Node Expr}
    (h : (wrap r head stop ds written whitespace case switchId n).run st = .ok (result, st')) :
    n.all ⊆ result.all ∧
      (∀ t, ds.clause? .fillSlot = some t → ∃ inner, result.fills = [(Text.trim t.value, inner)] ∧ n.all ⊆ inner.all) ∧
      (ds.clause? .fillSlot = none → result.fills = n.fills) := by
  rw [wrap, run_bind_eq_ok] at h
  obtain ⟨n₁, st₁, hcontrolled, h⟩ := h
  obtain ⟨n₂, st₂, hdefine, henclosed⟩ := run_bind_eq_ok.1 h
  have hn₁ : Draws 0 (fun _ m => n.all ⊆ m.all ∧
      (∀ t, ds.clause? .fillSlot = some t → ∃ inner, m.fills = [(Text.trim t.value, inner)] ∧ n.all ⊆ inner.all) ∧
      (ds.clause? .fillSlot = none → m.fills = n.fills)) (controlled r ds whitespace case switchId n) := by
    refine (ordinary_holds n.fills n.all).controlled r ds whitespace case switchId
      (fun _ _ _ _ _ _ => ⟨rfl, List.subset_cons_self _ _⟩) (fun _ => ⟨rfl, List.Subset.refl _⟩)
      (fun _ _ _ _ _ _ h => ⟨h.1, List.subset_cons_of_subset _ h.2⟩)
      (fun t ht _ m hm => ⟨List.subset_cons_of_subset _ hm.2, fun t' ht' => ⟨m, ?_, hm.2⟩, fun hnone => ?_⟩)
      (fun hnone _ _ hm => ⟨hm.2, fun t ht => ?_, fun _ => hm.1⟩)
    · rw [Option.some.inj (ht'.symm.trans ht)]
      rfl
    · simp [hnone] at ht
    · simp [hnone] at ht
  obtain ⟨_, _, _, hn₁⟩ := hn₁ st n₁ st₁ (Nat.zero_le _) hcontrolled
  have hn₂ : n₂.fills = n₁.fills ∧ n₁.all ⊆ n₂.all := by
    rcases exists_of_defining hdefine with ⟨rfl, _⟩ | ⟨name, _, rfl, _⟩
    · exact ⟨rfl, List.Subset.refl _⟩
    · exact ⟨rfl, List.subset_cons_self _ _⟩
  obtain ⟨_, _, _, hresult⟩ := (ordinary_holds n₂.fills n₂.all).enclosed r ds head stop written
    ⟨rfl, List.Subset.refl _⟩ st₂ result st' (Nat.zero_le _) henclosed
  refine ⟨fun m hm => hresult.2 (hn₂.2 (hn₁.1 hm)), ?_⟩
  rw [hresult.1, hn₂.1]
  exact hn₁.2

theorem holds_of_elementOrCall {body : List (Node Expr)} {n : Node Expr}
    (h : (elementOrCall r head stop ds written body).run st = .ok (n, st')) :
    ((call? ds).isSome = true → n.fills = [] ∧ ((∃ name extend, n = .useInternal name (Node.fillsOf body) extend) ∨
      ∃ e extend, n = .useExternal e (Node.fillsOf body) extend)) ∧
    ((call? ds).isSome = false → n.fills = Node.fillsOf body ∧ Node.allOf body ⊆ n.all ∧ HasClauses head ds n) := by
  unfold elementOrCall at h
  split at h
  · next t extend hcall =>
    refine ⟨fun _ => ?_, by simp [hcall]⟩
    rcases exists_of_macroCall h with ⟨name, _, rfl, _⟩ | ⟨e, rfl, _⟩
    · exact ⟨rfl, .inl ⟨name, extend, rfl⟩⟩
    · exact ⟨rfl, .inr ⟨e, extend, rfl⟩⟩
  · next hcall =>
    refine ⟨by simp [hcall], fun _ => ?_⟩
    obtain ⟨_, _, _, hn⟩ := (ordinary_holds (Node.fillsOf body) (Node.allOf body)).element r ds head stop written
      ⟨rfl, List.subset_cons_self _ _⟩ st n st' (Nat.zero_le _) h
    exact ⟨hn.1, hn.2, hasClauses_of_element h⟩

theorem inCall_of_enter {s : Surrounding} {numbers : Nat × Nat} (h : (enter s ds).run st = .ok (numbers, st'))
    (hfill : ds.has .fillSlot = true) : s.inCall = true := by
  simp only [enter, run_bind_eq_ok] at h
  obtain ⟨_, _, _, _, _, _, _, _, hcheck, _⟩ := h
  obtain ⟨t, ht⟩ := has_eq_true_iff.1 hfill
  simp only [checkFill, ht] at hcheck
  split at hcheck
  · next hs => exact hs
  · cases hcheck

end Steps

namespace Built

/-- What an element keeps of what stands in it, and how its fills come about. -/
structure Lawful (b : Built) : Prop where
  kept : b.content.all ⊆ b.result.all
  below : b.isCall = false → Node.allOf (b.children.map result) ⊆ b.content.all
  clauses : b.isCall = false → ∀ head ∈ b.head?, HasClauses head b.ds b.content
  fill : b.isFill = true → ∃ s, b.Fills s ∧ b.content.all ⊆ s.2.all
  call : b.isFill = false → b.isCall = true → b.result.fills = []
  other : b.isFill = false → b.isCall = false → b.result.fills = Node.fillsOf (b.children.map result)
  slots : b.isCall = true → b.Calls (Node.fillsOf (b.children.map result))

/-- Fills come about as they should in the whole tree, and each of them stands in a call. -/
inductive WellMade : Bool → Built → Prop where
  | mk {inCall : Bool} {b : Built} : b.Lawful → (b.isFill = true → inCall = true) →
      (∀ c ∈ b.children, WellMade (inCall || b.isCall) c) → WellMade inCall b

end Built

mutual

theorem wellMade_of_builtNodes {s : Surrounding} : ∀ {whitespace : Bytes} {ns : List Markup.Node} {st st' : State}
    {bs : List Built}, (builtNodes s whitespace ns).run st = .ok (bs, st') → ∀ b ∈ bs, b.WellMade s.inCall
  | _, [], _, _, _, h => by
    cases h
    simp
  | _, n :: ns, _, _, _, h => by
    rw [builtNodes, run_bind_eq_ok] at h
    obtain ⟨p, _, hn, h⟩ := h
    obtain ⟨bs, _, hns, h⟩ := run_bind_eq_ok.1 h
    cases h
    exact List.forall_mem_cons.2 ⟨wellMade_of_builtNode hn, wellMade_of_builtNodes hns⟩

theorem wellMade_of_builtNode {s : Surrounding} {whitespace : Bytes} : ∀ {n : Markup.Node} {st st' : State}
    {p : Built × Bytes}, (builtNode s whitespace n).run st = .ok (p, st') → p.1.WellMade s.inCall
  | .text t, st, st', _, h => by
    obtain ⟨n, _, hn, h⟩ := run_bind_eq_ok.1 h
    cases h
    obtain ⟨_, _, _, hplain⟩ := draws_textNode s.registry t 0 st n st' (Nat.zero_le _) hn
    exact .mk ⟨List.Subset.refl _, fun _ => List.nil_subset _, nofun, nofun, fun _ _ => hplain.fills,
      fun _ _ => hplain.fills, nofun⟩ nofun nofun
  | .element head children stop, _, _, _, h => by
    rw [builtNode, run_bind_eq_ok] at h
    obtain ⟨⟨ds, written⟩, _, _, h⟩ := h
    obtain ⟨_, _, _, h⟩ := run_bind_eq_ok.1 h
    obtain ⟨numbers, _, henter, h⟩ := run_bind_eq_ok.1 h
    obtain ⟨body, _, hbody, h⟩ := run_bind_eq_ok.1 h
    obtain ⟨content, _, hcontent, h⟩ := run_bind_eq_ok.1 h
    obtain ⟨_, _, hsurround, h⟩ := run_bind_eq_ok.1 h
    cases h
    obtain ⟨result, _, hresult, h⟩ := run_bind_eq_ok.1 hsurround
    obtain ⟨_, _, _, h⟩ := run_bind_eq_ok.1 h
    cases h
    obtain ⟨hcalled, helement⟩ := holds_of_elementOrCall hcontent
    obtain ⟨hkept, hfill, hfree⟩ := holds_of_wrap hresult
    refine .mk ⟨hkept, fun hcall => (helement hcall).2.1, fun hcall => ?_, fun h => ?_, fun h hcall => ?_,
      fun h hcall => ?_, fun hcall => ?_⟩ (inCall_of_enter henter) ?_
    · rintro _ ⟨⟩
      exact (helement hcall).2.2
    · obtain ⟨t, ht⟩ := has_eq_true_iff.1 h
      obtain ⟨inner, hinner, hsubset⟩ := hfill t ht
      exact ⟨_, ⟨⟨t, ht, rfl⟩, hinner⟩, hsubset⟩
    · exact (hfree (has_eq_false_iff.1 h)).trans (hcalled hcall).1
    · exact (hfree (has_eq_false_iff.1 h)).trans (helement hcall).1
    · exact (hcalled hcall).2
    · exact wellMade_of_builtNodes hbody

end

/-! ### Paths to fills -/

namespace Built

variable {p : List Nat} {b : Built}

mutual

/-- The paths from an element to fills, itself perhaps, on which there is no call and no other fill. -/
def suppliers : Built → List (List Nat)
  | mk _ ds children _ _ =>
    if ds.has .fillSlot then [[]] else if (call? ds).isSome then [] else suppliersFrom 0 children

def suppliersFrom (i : Nat) : List Built → List (List Nat)
  | [] => []
  | b :: bs => b.suppliers.map (i :: ·) ++ suppliersFrom (i + 1) bs

end

theorem suppliers_eq (b : Built) :
    b.suppliers = if b.isFill then [[]] else if b.isCall then [] else suppliersFrom 0 b.children := by
  obtain ⟨head, ds, children, content, result⟩ := b
  rw [suppliers]
  rfl

theorem mem_suppliersFrom {i : Nat} {bs : List Built} :
    p ∈ suppliersFrom i bs ↔ ∃ j q c, p = (i + j) :: q ∧ bs[j]? = some c ∧ q ∈ c.suppliers := by
  induction bs generalizing i with
  | nil => simp [suppliersFrom]
  | cons b bs ih =>
    rw [suppliersFrom, List.mem_append, List.mem_map, ih]
    constructor
    · rintro (⟨q, hq, rfl⟩ | ⟨j, q, c, rfl, hc, hq⟩)
      · exact ⟨0, q, b, rfl, rfl, hq⟩
      · exact ⟨j + 1, q, c, by rw [Nat.add_right_comm]; rfl, hc, hq⟩
    · rintro ⟨j, q, c, rfl, hc, hq⟩
      cases j with
      | zero =>
        cases hc
        exact .inl ⟨q, hq, rfl⟩
      | succ j => exact .inr ⟨j, q, c, by rw [Nat.add_right_comm]; rfl, hc, hq⟩

theorem mem_suppliers : p ∈ b.suppliers ↔ (∃ c, b.descend p = some c ∧ c.isFill = true) ∧
      ∀ x, x <+: p → x ≠ p → ∀ c, b.descend x = some c → c.isFill = false ∧ c.isCall = false := by
  induction p generalizing b with
  | nil =>
    have hnot : [] ∉ suppliersFrom 0 b.children := by simp [mem_suppliersFrom]
    rw [suppliers_eq]
    by_cases hfill : b.isFill = true <;> by_cases hcall : b.isCall = true <;> simp [descend, hfill, hcall, hnot]
  | cons i p ih =>
    constructor
    · intro h
      rw [suppliers_eq] at h
      split at h
      · simp at h
      · next hfill =>
        split at h
        · simp at h
        · next hcall =>
          obtain ⟨j, q, c, heq, hc, hq⟩ := mem_suppliersFrom.1 h
          obtain ⟨rfl, rfl⟩ : i = j ∧ p = q := by simpa using heq
          obtain ⟨⟨d, hd, hdfill⟩, hclear⟩ := ih.1 hq
          refine ⟨⟨d, Option.bind_eq_some_iff.2 ⟨c, hc, hd⟩, hdfill⟩, fun x hx hne e he => ?_⟩
          cases x with
          | nil =>
            cases he
            exact ⟨eq_false_of_ne_true hfill, eq_false_of_ne_true hcall⟩
          | cons k x =>
            obtain ⟨rfl, hxp⟩ := List.cons_prefix_cons.1 hx
            obtain ⟨c', hc', he⟩ := Option.bind_eq_some_iff.1 he
            obtain rfl := Option.some.inj (hc'.symm.trans hc)
            exact hclear x hxp (fun h => hne (h ▸ rfl)) e he
    · rintro ⟨⟨d, hd, hdfill⟩, hclear⟩
      obtain ⟨hfill, hcall⟩ := hclear [] List.nil_prefix (List.cons_ne_nil _ _).symm _ rfl
      obtain ⟨c, hc, hd⟩ := Option.bind_eq_some_iff.1 hd
      have hq : p ∈ c.suppliers := by
        refine ih.2 ⟨⟨d, hd, hdfill⟩, fun x hx hne e he => ?_⟩
        exact hclear (i :: x) (List.cons_prefix_cons.2 ⟨rfl, hx⟩) (by simpa using hne) e
          (Option.bind_eq_some_iff.2 ⟨c, hc, he⟩)
      rw [suppliers_eq, if_neg (ne_true_of_eq_false hfill), if_neg (ne_true_of_eq_false hcall)]
      exact mem_suppliersFrom.2 ⟨i, p, c, by simp, hc, hq⟩

theorem mem_suppliersFrom_zero : p ∈ suppliersFrom 0 b.children ↔ b.Reaches p := by
  -- For an element without directives these are its own.
  have hbare : suppliersFrom 0 b.children = (mk none [] b.children b.content b.result).suppliers := rfl
  have hdescend : ∀ {x}, x ≠ [] → (mk none [] b.children b.content b.result).descend x = b.descend x := by
    intro x hx
    cases x with
    | nil => exact absurd rfl hx
    | cons i x => rfl
  rw [hbare, mem_suppliers]
  constructor
  · rintro ⟨⟨c, hc, hfill⟩, hclear⟩
    have hne : p ≠ [] := by
      rintro rfl
      cases hc
      cases hfill
    exact ⟨hne, ⟨c, (hdescend hne).symm.trans hc, hfill⟩, fun x hx d hd =>
      hclear x hx.1 hx.2.2 d ((hdescend hx.2.1).trans hd)⟩
  · rintro ⟨hne, ⟨c, hc, hfill⟩, hbetween⟩
    refine ⟨⟨c, (hdescend hne).trans hc, hfill⟩, fun x hx hxp d hd => ?_⟩
    by_cases hnil : x = []
    · cases hnil
      cases hd
      exact ⟨rfl, rfl⟩
    · exact hbetween x ⟨hx, hnil, hxp⟩ d ((hdescend hnil).symm.trans hd)

mutual

theorem forall₂_suppliers {k : Bool} : ∀ {b : Built}, b.WellMade k →
    List.Forall₂ (fun p s => ∃ c, b.descend p = some c ∧ c.Fills s) b.suppliers b.result.fills
  | mk head ds children content result, .mk hlawful _ hchildren => by
    rw [suppliers]
    split
    · next hfill =>
      obtain ⟨s, hs, _⟩ := hlawful.fill hfill
      rw [hs.2]
      exact .cons ⟨_, rfl, hs⟩ .nil
    · next hfill =>
      have hfill := eq_false_of_ne_true hfill
      split
      · next hcall =>
        rw [hlawful.call hfill hcall]
        exact .nil
      · next hcall =>
        rw [hlawful.other hfill (eq_false_of_ne_true hcall)]
        exact forall₂_suppliersFrom head ds content result [] children hchildren

theorem forall₂_suppliersFrom {k : Bool} (head : Option ElementHead) (ds : Directives) (content result : Node Expr) :
    ∀ before bs : List Built, (∀ b ∈ bs, b.WellMade k) →
      List.Forall₂ (fun p s => ∃ c, (mk head ds (before ++ bs) content result).descend p = some c ∧ c.Fills s)
        (suppliersFrom before.length bs) (Node.fillsOf (bs.map Built.result))
  | _, [], _ => .nil
  | before, b :: bs, h => by
    obtain ⟨hb, hbs⟩ := List.forall_mem_cons.1 h
    have hrest := forall₂_suppliersFrom head ds content result (before ++ [b]) bs hbs
    rw [List.length_append, List.append_assoc] at hrest
    refine List.rel_append (List.forall₂_map_left_iff.2 ((forall₂_suppliers hb).imp ?_)) hrest
    rintro q s ⟨c, hc, hs⟩
    have hat : (before ++ b :: bs)[before.length]? = some b := by simp
    exact ⟨c, Option.bind_eq_some_iff.2 ⟨b, hat, hc⟩, hs⟩

end

theorem forall₂_of_children {k : Bool} (h : ∀ c ∈ b.children, c.WellMade k) :
    List.Forall₂ (fun p s => ∃ c, b.descend p = some c ∧ c.Fills s) (suppliersFrom 0 b.children)
      (Node.fillsOf (b.children.map result)) := by
  obtain ⟨head, ds, children, content, result⟩ := b
  exact forall₂_suppliersFrom head ds content result [] children h

@[simp] theorem descend_append (b : Built) (p q : List Nat) :
    b.descend (p ++ q) = (b.descend p).bind fun c => c.descend q := by
  induction p generalizing b with
  | nil => rfl
  | cons i p ih =>
    show b.children[i]?.bind (fun c => c.descend (p ++ q)) = (b.children[i]?.bind fun c => c.descend p).bind _
    simp only [ih, Option.bind_assoc]

/-- Well-made elements have well-made ones below them. The innermost call that opens stands on the way down. -/
theorem WellMade.descend {k : Bool} {c : Built} (h : b.WellMade k) (hc : b.descend p = some c) :
    ∃ k', c.WellMade k' ∧ (k' = true →
      (k = true ∧ ∀ y, y <+: p → y ≠ p → ∀ d, b.descend y = some d → d.isCall = false) ∨
      ∃ q x d, p = q ++ x ∧ x ≠ [] ∧ b.descend q = some d ∧ d.isCall = true ∧
        ∀ y, Between y x → ∀ e, d.descend y = some e → e.isCall = false) := by
  induction p generalizing k b with
  | nil =>
    cases hc
    exact ⟨k, h, fun hk => .inl ⟨hk, fun y hy hne => absurd (List.prefix_nil.1 hy) hne⟩⟩
  | cons i p ih =>
    obtain ⟨_, _, hchildren⟩ := h
    obtain ⟨b', hb', hc⟩ := Option.bind_eq_some_iff.1 hc
    obtain ⟨k', hk', hopen⟩ := ih (hchildren b' (List.mem_of_getElem? hb')) hc
    refine ⟨k', hk', fun hk => ?_⟩
    have hdown : ∀ {y d}, b.descend (i :: y) = some d → b'.descend y = some d := fun {y d} hd => by
      rwa [Built.descend, hb'] at hd
    rcases hopen hk with ⟨hinside, hclear⟩ | ⟨q, x, d, rfl, hx, hd, hcall, hbetween⟩
    · -- With no call further down, it is this element that opens one, or one around it.
      cases hcall : b.isCall with
      | true =>
        refine .inr ⟨[], i :: p, b, rfl, List.cons_ne_nil _ _, rfl, hcall, fun y hy e he => ?_⟩
        obtain ⟨hy, hnil, hne⟩ := hy
        obtain ⟨y, rfl, hyp⟩ := (List.prefix_cons_iff.1 hy).resolve_left hnil
        exact hclear y hyp (fun h => hne (h ▸ rfl)) e (hdown he)
      | false =>
        rw [hcall, Bool.or_false] at hinside
        refine .inl ⟨hinside, fun y hy hne e he => ?_⟩
        rcases List.prefix_cons_iff.1 hy with rfl | ⟨y, rfl, hyp⟩
        · cases he
          exact hcall
        · exact hclear y hyp (fun h => hne (h ▸ rfl)) e (hdown he)
    · exact .inr ⟨i :: q, x, d, rfl, hx, Option.bind_eq_some_iff.2 ⟨b', hb', hd⟩, hcall, hbetween⟩

/-! ### What stays in the program -/

/-- What stands at the end of a path down from an element stays in what that is built to: the way leaves each call through
a fill that the call collects. -/
inductive Stays : Built → List Nat → Built → Prop where
  | here (b : Built) : Stays b [] b
  | child {b c d : Built} {i : Nat} {p : List Nat} : b.isCall = false → b.children[i]? = some c → Stays c p d →
      Stays b (i :: p) d
  | fill {b c d : Built} {p q : List Nat} : b.isCall = true → b.Reaches p → b.descend p = some c → Stays c q d →
      Stays b (p ++ q) d

theorem WellMade.lawful {k : Bool} (h : b.WellMade k) : b.Lawful := by
  obtain ⟨hlawful, _, _⟩ := h
  exact hlawful

theorem WellMade.all_subset_of_mem {k : Bool} {c : Built} (h : b.WellMade k) (hcall : b.isCall = false)
    (hc : c ∈ b.children) : c.WellMade k ∧ c.content.all ⊆ b.content.all := by
  obtain ⟨hlawful, _, hchildren⟩ := h
  have hmade := hchildren c hc
  rw [hcall, Bool.or_false] at hmade
  refine ⟨hmade, fun m hm => hlawful.below hcall ?_⟩
  rw [Node.allOf_eq_flatMap]
  exact List.mem_flatMap.2 ⟨c.result, List.mem_map_of_mem hc, hmade.lawful.kept hm⟩

/-- What fills a slot of a call stands in the call. -/
theorem WellMade.all_subset_of_reaches {k : Bool} {c : Built} (h : b.WellMade k) (hcall : b.isCall = true)
    (hp : b.Reaches p) (hc : b.descend p = some c) :
    (∃ k', c.WellMade k') ∧ c.content.all ⊆ b.content.all := by
  obtain ⟨k', hmade, _⟩ := h.descend hc
  obtain ⟨hlawful, _, hchildren⟩ := h
  -- The call has a fill for the path, and the element at its end has only one.
  obtain ⟨s, hs, c', hc', hfills⟩ := exists_of_forall₂ (forall₂_of_children hchildren).flip (mem_suppliersFrom_zero.2 hp)
  obtain rfl := Option.some.inj (hc'.symm.trans hc)
  obtain ⟨_, hc', hfill⟩ := hp.fill
  obtain rfl := Option.some.inj (hc'.symm.trans hc)
  obtain ⟨s', hs', hsubset⟩ := hmade.lawful.fill hfill
  obtain rfl : s = s' := List.singleton_inj.1 (hfills.2.symm.trans hs'.2)
  refine ⟨⟨k', hmade⟩, fun m hm => ?_⟩
  have hslots : m ∈ Node.allOfSlots (Node.fillsOf (b.children.map result)) := by
    rw [Node.allOfSlots_eq_flatMap]
    exact List.mem_flatMap.2 ⟨.fillSlot s.1 s.2, List.mem_map_of_mem hs, List.mem_cons_of_mem _ (hsubset hm)⟩
  rcases hlawful.slots hcall with ⟨name, extend, hcontent⟩ | ⟨e, extend, hcontent⟩ <;> rw [hcontent] <;>
    exact List.mem_cons_of_mem _ hslots

theorem Stays.all_subset {k : Bool} {c : Built} (hstays : b.Stays p c) (h : b.WellMade k) :
    (∃ k', c.WellMade k') ∧ c.content.all ⊆ b.content.all := by
  induction hstays generalizing k with
  | here b => exact ⟨⟨k, h⟩, List.Subset.refl _⟩
  | child hcall hc _ ih =>
    obtain ⟨hmade, hsubset⟩ := h.all_subset_of_mem hcall (List.mem_of_getElem? hc)
    exact ⟨(ih hmade).1, fun m hm => hsubset ((ih hmade).2 hm)⟩
  | fill hcall hp hc _ ih =>
    obtain ⟨⟨k', hmade⟩, hsubset⟩ := h.all_subset_of_reaches hcall hp hc
    exact ⟨(ih hmade).1, fun m hm => hsubset ((ih hmade).2 hm)⟩

/-- A whole template, which has no directives. -/
def template (bs : List Built) : Built :=
  .mk none [] bs (.sequence (bs.map result)) (.sequence (bs.map result))

end Built

open Built in
theorem exists_built_of_build {r : Registry} {filename source : Bytes} {tree : List Markup.Node} {m : Module}
    (h : build r filename source tree = .ok m) :
    ∃ bs st, (builtNodes { registry := r } [] tree).run {} = .ok (bs, st) ∧ m.body = .sequence (bs.map result) ∧
      (template bs).WellMade false := by
  obtain ⟨ns, st, hns, hbody, _⟩ := exists_nodes_of_build h
  rw [nodes_eq, map_eq_pure_bind, run_bind_eq_ok] at hns
  obtain ⟨bs, _, hbs, hns⟩ := hns
  cases hns
  refine ⟨bs, st, hbs, hbody, .mk ⟨List.Subset.refl _, fun _ => ?_, nofun, nofun, nofun, fun _ _ => rfl, nofun⟩ nofun
    (wellMade_of_builtNodes hbs)⟩
  exact List.subset_cons_self _ _

open Built in
/-- An element that stays in a compiled template and calls no macro has its clauses there. -/
theorem exists_clauses_of_compileTemplate {r : Registry} {filename source : Bytes} {settings : Nat} {p : Program}
    (h : compileTemplate r filename source settings = .ok p) :
    ∃ tree m bs st, Markup.parse source filename = .ok tree ∧ build r filename source tree = .ok m ∧
      (builtNodes { registry := r } [] tree).run {} = .ok (bs, st) ∧
      ∀ {q b head}, (template bs).Stays q b → b.head? = some head → b.isCall = false →
        HasClauses head b.ds b.content ∧ ∀ n ∈ b.content.all, n.map (m.compiled r) ∈ p.main.all := by
  obtain ⟨tree, m, hparse, hbuild, hmain, _⟩ := exists_module_of_compileTemplate h
  obtain ⟨bs, st, hbs, hbody, hmade⟩ := exists_built_of_build hbuild
  refine ⟨tree, m, bs, st, hparse, hbuild, hbs, fun {q b head} hstays hhead hcall => ?_⟩
  obtain ⟨⟨_, hstaying⟩, hsubset⟩ := hstays.all_subset hmade
  refine ⟨hstaying.lawful.clauses hcall head hhead, fun n hn => ?_⟩
  rw [hmain.eq_map, Node.all_map, hbody]
  exact List.mem_map_of_mem (hsubset hn)

end PageTemplate.Builder
