import PageTemplate.Proofs.Assoc
import PageTemplate.Proofs.Markup.Matching

/-!
Where declarations of namespaces reach. The reader binds prefixes when a start tag is read and takes them back when the
element is closed. So a declaration reaches what stands inside its element, and if the element is never closed, what
follows it up to the end of its parent. `places` gives every element of a tree with the elements that reach it, and the
main statement is that names are resolved by the declarations of these and no others.
-/

namespace PageTemplate.Markup

variable {b : Bindings}

/-- What an attribute declares a lead to stand for. -/
def RawAttribute.declared? (lead : Bytes) (a : RawAttribute) : Option Bytes :=
  if declaredLead? a.name.value = some lead then some a.value.value else none

/-- What a list of attributes declares a lead to stand for. The last declaration counts. -/
def declared? (lead : Bytes) (attributes : List RawAttribute) : Option Bytes :=
  (attributes.filterMap (RawAttribute.declared? lead)).getLast?

theorem declared?_cons (lead : Bytes) (a : RawAttribute) (as : List RawAttribute) :
    declared? lead (a :: as) = (declared? lead as).or (a.declared? lead) := by
  unfold declared?
  cases h : a.declared? lead with
  | none => rw [List.filterMap_cons_none h, Option.or_none]
  | some v => rw [List.filterMap_cons_some h, List.getLast?_cons, Option.or_some]

@[simp] theorem Bindings.declare_append (b : Bindings) (as as' : List RawAttribute) :
    b.declare (as ++ as') = (b.declare as).declare as' := List.foldl_append

@[simp] theorem Bindings.get?_declare_singleton (b : Bindings) (a : RawAttribute) (lead : Bytes) :
    (b.declare [a]).get? lead = (a.declared? lead).or (b.get? lead) := by
  unfold declare RawAttribute.declared?
  rw [List.foldl_cons, List.foldl_nil]
  cases declaredLead? a.name.value with
  | none => rfl
  | some l =>
    dsimp only
    rw [Assoc.get?_insert]
    by_cases h : lead = l
    · simp [h]
    · simp [h, Ne.symm h]

theorem Bindings.get?_declare (b : Bindings) (attributes : List RawAttribute) (lead : Bytes) :
    (b.declare attributes).get? lead = (declared? lead attributes).or (b.get? lead) := by
  induction attributes generalizing b with
  | nil => rfl
  | cons a as ih =>
    calc (b.declare (a :: as)).get? lead
        = ((b.declare [a]).declare as).get? lead := rfl
      _ = (declared? lead as).or ((a.declared? lead).or (b.get? lead)) := by rw [ih, get?_declare_singleton]
      _ = (declared? lead (a :: as)).or (b.get? lead) := by rw [declared?_cons, Option.or_assoc]

/-- An element whose declarations reach a place. -/
inductive Reach where
  /-- The place is inside the element. -/
  | around (head : ElementHead)
  /-- The element is unclosed and stands before the place, or before an element around it. -/
  | before (head : ElementHead)
  deriving DecidableEq, Repr

namespace Reach

def attributes : Reach → List RawAttribute
  | around head | before head => head.start.attributes

/-- The element, if the place is inside it. -/
def ancestor? : Reach → Option ElementHead
  | around head => some head
  | before _ => none

end Reach

/-- A node reaches what follows it if it is an unclosed element. -/
def Node.reach : Node → List Reach
  | .element head _ none => if head.start.token.kind = .emptyTag then [] else [.before head]
  | _ => []

mutual

/-- The elements of a node at a place, each with those that reach it, from the outside in. -/
def Node.places (scope : List Reach) : Node → List (List Reach × ElementHead)
  | .text _ => []
  | .element head children _ => (scope, head) :: placesOf (scope ++ [.around head]) children

/-- The elements of a forest at a place, each with those that reach it, from the outside in. -/
def placesOf (scope : List Reach) : List Node → List (List Reach × ElementHead)
  | [] => []
  | n :: ns => n.places scope ++ placesOf (scope ++ n.reach) ns

end

mutual

theorem Node.map_snd_places (scope : List Reach) : ∀ n : Node, (n.places scope).map Prod.snd = n.heads
  | .text _ => rfl
  | .element head children _ => congrArg (head :: ·) (map_snd_placesOf _ children)

theorem map_snd_placesOf (scope : List Reach) : ∀ ns : List Node, (placesOf scope ns).map Prod.snd = elementHeads ns
  | [] => rfl
  | n :: ns => by
    rw [placesOf, List.map_append, Node.map_snd_places scope n, map_snd_placesOf _ ns, elementHeads]

end

/-- The bindings after a node. -/
def Bindings.past (b : Bindings) (n : Node) : Bindings := b.declare (n.reach.flatMap Reach.attributes)

mutual

/-- Under these bindings outside, the names of a tree are resolved by the bindings inside their elements. -/
def Node.Resolved (b : Bindings) : Node → Prop
  | .text _ => True
  | .element head children _ =>
    head = ElementHead.ofTag (b.declare head.start.attributes) head.start ∧
      AllResolved (b.declare head.start.attributes) children

/-- Under the bindings outside, the names of a forest are resolved by those inside its elements. -/
def AllResolved (b : Bindings) : List Node → Prop
  | [] => True
  | n :: ns => n.Resolved b ∧ AllResolved (b.past n) ns

end

theorem allResolved_append {ns ms : List Node} :
    AllResolved b (ns ++ ms) ↔ AllResolved b ns ∧ AllResolved (ns.foldl Bindings.past b) ms := by
  induction ns generalizing b with
  | nil => simp [AllResolved]
  | cons n ns ih => simp only [List.cons_append, AllResolved, ih, List.foldl_cons, and_assoc]

mutual

theorem Node.Resolved.places (scope : List Reach) : ∀ {n : Node},
    n.Resolved (Bindings.initial.declare (scope.flatMap Reach.attributes)) → ∀ p ∈ n.places scope,
      p.2 = ElementHead.ofTag
        (Bindings.initial.declare (p.1.flatMap Reach.attributes ++ p.2.start.attributes)) p.2.start
  | .text _, _, p, hp => by simp [Node.places] at hp
  | .element head children _, h, p, hp => by
    rcases List.mem_cons.1 hp with rfl | hp
    · rw [Bindings.declare_append]
      exact h.1
    · refine AllResolved.placesOf _ ?_ p hp
      have hinside : (scope ++ [Reach.around head]).flatMap Reach.attributes =
          scope.flatMap Reach.attributes ++ head.start.attributes := by simp [Reach.attributes]
      rw [hinside, Bindings.declare_append]
      exact h.2

theorem AllResolved.placesOf (scope : List Reach) : ∀ {ns : List Node},
    AllResolved (Bindings.initial.declare (scope.flatMap Reach.attributes)) ns → ∀ p ∈ placesOf scope ns,
      p.2 = ElementHead.ofTag
        (Bindings.initial.declare (p.1.flatMap Reach.attributes ++ p.2.start.attributes)) p.2.start
  | [], _, p, hp => by simp [Markup.placesOf] at hp
  | n :: ns, h, p, hp => by
    rcases List.mem_append.1 hp with hp | hp
    · exact Node.Resolved.places scope h.1 p hp
    · refine AllResolved.placesOf _ ?_ p hp
      rw [List.flatMap_append, Bindings.declare_append]
      exact h.2

end

/-! ### Reading -/

/-- The forest read so far ends with an open element and what was read inside it. -/
theorem TreeState.finish_append_cons (passed outer : List OpenElement) (o : OpenElement) (nodes : List Node)
    (b b' b'' : Bindings) : TreeState.finish ⟨passed ++ o :: outer, nodes, b⟩ =
      TreeState.finish ⟨outer, o.before, b'⟩ ++
        .element o.head [] none :: TreeState.finish ⟨passed, nodes, b''⟩ := by
  simp [finish_eq, OpenElement.abandon]

/-- The reader has resolved the names so far, and has the bindings to go on, here and behind each open element. -/
structure TreeState.Resolved (st : TreeState) : Prop where
  forest : AllResolved Bindings.initial st.finish
  bindings : st.bindings = st.finish.foldl Bindings.past Bindings.initial
  outer : ∀ passed o outer, st.opened = passed ++ o :: outer → o.head.start.token.kind ≠ .emptyTag ∧
    o.outer = (TreeState.finish ⟨outer, o.before, o.outer⟩).foldl Bindings.past Bindings.initial

theorem allResolved_finish_cons {opened : List OpenElement} {nodes : List Node} {b' : Bindings} {n : Node}
    (h : AllResolved b (TreeState.finish ⟨opened, nodes, b'⟩))
    (hn : n.Resolved ((TreeState.finish ⟨opened, nodes, b'⟩).foldl Bindings.past b)) :
    AllResolved b (TreeState.finish ⟨opened, n :: nodes, b'⟩) ∧ (TreeState.finish ⟨opened, n :: nodes, b'⟩).foldl
      Bindings.past b = ((TreeState.finish ⟨opened, nodes, b'⟩).foldl Bindings.past b).past n := by
  have hfinish : TreeState.finish ⟨opened, n :: nodes, b'⟩ = TreeState.finish ⟨opened, nodes, b'⟩ ++ [n] := by
    simp [TreeState.finish_eq]
  rw [hfinish, List.foldl_append]
  exact ⟨allResolved_append.2 ⟨h, hn, trivial⟩, rfl⟩

theorem Steps.resolved {tok : Token} {st st' : TreeState} (hstep : Steps tok st st') (h : st.Resolved) :
    st'.Resolved := by
  cases hstep with
  | text _ =>
    obtain ⟨hforest, hpast⟩ := allResolved_finish_cons (n := .text tok) h.forest trivial
    exact ⟨hforest, h.bindings.trans hpast.symm, h.outer⟩
  | @empty _ tag htag hkind =>
    let head := ElementHead.ofTag (st.bindings.declare tag.attributes) tag
    have hreach : (Node.element head [] none).reach = [] := by
      simp [head, Node.reach, ElementHead.ofTag, token_of_ofToken? htag, hkind]
    obtain ⟨hforest, hpast⟩ := allResolved_finish_cons (n := .element head [] none) h.forest
      (h.bindings ▸ ⟨rfl, trivial⟩)
    rw [Bindings.past, hreach] at hpast
    exact ⟨hforest, h.bindings.trans hpast.symm, h.outer⟩
  | @start _ tag htag hkind =>
    let head := ElementHead.ofTag (st.bindings.declare tag.attributes) tag
    have hfinish : TreeState.finish ⟨⟨head, st.nodes, st.bindings⟩ :: st.opened, [],
        st.bindings.declare tag.attributes⟩ = st.finish ++ [.element head [] none] :=
      TreeState.finish_append_cons [] st.opened ⟨head, st.nodes, st.bindings⟩ [] _ st.bindings st.bindings
    have hopen : head.start.token.kind ≠ .emptyTag := by
      simp [head, ElementHead.ofTag, token_of_ofToken? htag, hkind]
    have hreach : (Node.element head [] none).reach = [.before head] := by simp [Node.reach, hopen]
    refine ⟨?_, ?_, ?_⟩
    · rw [hfinish, allResolved_append, ← h.bindings]
      exact ⟨h.forest, ⟨rfl, trivial⟩, trivial⟩
    · rw [hfinish, List.foldl_append, ← h.bindings, List.foldl_cons, List.foldl_nil, Bindings.past, hreach]
      simp [Reach.attributes, head, ElementHead.ofTag]
    · intro passed o outer heq
      rcases List.cons_eq_append_iff.1 heq with ⟨rfl, heq⟩ | ⟨passed, rfl, hrest⟩
      · cases heq
        exact ⟨hopen, h.bindings⟩
      · exact h.outer passed o outer hrest
  | @stop passed outer o nodes bindings tag htag hkind hpassed hname =>
    obtain ⟨hopen, houter⟩ := h.outer passed o outer rfl
    have hforest := h.forest
    rw [TreeState.finish_append_cons passed outer o nodes _ o.outer bindings, allResolved_append, ← houter] at hforest
    obtain ⟨hbefore, ⟨hhead, _⟩, hinside⟩ := hforest
    have hinner : o.outer.past (.element o.head [] none) = o.outer.declare o.head.start.attributes := by
      simp [Bindings.past, Node.reach, hopen, Reach.attributes]
    rw [hinner] at hinside
    obtain ⟨hforest, hpast⟩ := allResolved_finish_cons
      (n := .element o.head (TreeState.finish ⟨passed, nodes, bindings⟩) (some tag)) hbefore (houter ▸ ⟨hhead, hinside⟩)
    refine ⟨hforest, houter.trans hpast.symm, ?_⟩
    intro passed' o' outer' heq
    have heq : outer = passed' ++ o' :: outer' := heq
    refine h.outer (passed ++ o :: passed') o' outer' ?_
    rw [List.append_assoc, List.cons_append, heq]

theorem allResolved_of_parseTokens {tokens : List Token} {nodes : List Node} (h : parseTokens tokens = .ok nodes) :
    AllResolved Bindings.initial nodes := by
  obtain ⟨st, hst, rfl⟩ := parseTokens_eq_ok_iff.1 h
  have hresolved : st.Resolved :=
    hst.induction (motive := fun _ st => st.Resolved) ⟨trivial, rfl, by simp⟩ fun _ _ _ _ h hstep => hstep.resolved h
  exact hresolved.forest

theorem declared?_flatMap_ancestors {lead : Bytes} {scope : List Reach} (own : List RawAttribute)
    (h : ∀ head, .before head ∈ scope → declared? lead head.start.attributes = none) :
    declared? lead (scope.flatMap Reach.attributes ++ own) =
      declared? lead ((scope.filterMap Reach.ancestor?).flatMap (·.start.attributes) ++ own) := by
  unfold declared?
  congr 1
  induction scope with
  | nil => rfl
  | cons r scope ih =>
    have hscope := ih fun head hmem => h head (List.mem_cons_of_mem r hmem)
    rw [List.flatMap_cons, List.append_assoc, List.filterMap_append, hscope]
    cases r with
    | around head =>
      have hancestor : (Reach.around head).ancestor? = some head := rfl
      rw [List.filterMap_cons_some hancestor, List.flatMap_cons, List.append_assoc, ← List.filterMap_append]
      rfl
    | before head =>
      have hancestor : (Reach.before head).ancestor? = none := rfl
      have hnone := List.getLast?_eq_none_iff.1 (h head List.mem_cons_self)
      rw [List.filterMap_cons_none hancestor, Reach.attributes, hnone, List.nil_append]

/-- Namespaces are scoped by the tree, up to elements that are never closed. Each element of an accepted source, with
its attributes, has the names that follow from the default bindings, changed by the declarations of the elements that
reach its place from the outside in, and then by its own. For a lead that no unclosed element before the place declares,
these are the elements around it. -/
theorem names_resolved_in_scope {source filename : Bytes} {nodes : List Node}
    (h : parse source filename = .ok nodes) :
    (placesOf [] nodes).map Prod.snd = elementHeads nodes ∧
    ∀ scope head, (scope, head) ∈ placesOf [] nodes → ∃ b : Bindings,
      head = ElementHead.ofTag b head.start ∧
      ∀ lead,
        b.get? lead = (declared? lead (scope.flatMap Reach.attributes ++ head.start.attributes)).or
          (Bindings.initial.get? lead) ∧
        ((∀ other, .before other ∈ scope → declared? lead other.start.attributes = none) →
          b.get? lead = (declared? lead ((scope.filterMap Reach.ancestor?).flatMap (·.start.attributes) ++
            head.start.attributes)).or (Bindings.initial.get? lead)) := by
  refine ⟨map_snd_placesOf [] nodes, fun scope head hplace => ?_⟩
  have hnames := AllResolved.placesOf [] (allResolved_of_parseTokens h) (scope, head) hplace
  refine ⟨_, hnames, fun lead => ?_⟩
  rw [Bindings.get?_declare]
  refine ⟨rfl, fun hbefore => ?_⟩
  rw [declared?_flatMap_ancestors _ hbefore]

theorem exists_place_of_parse (source : Bytes) {P : List Reach × ElementHead → Prop}
    (h : ∃ p ∈ ((parse source []).toOption.map (placesOf [])).getD [], P p) :
    ∃ nodes, parse source [] = .ok nodes ∧ ∃ p ∈ placesOf [] nodes, P p := by
  cases hnodes : parse source [] with
  | error f => simp [hnodes, Except.toOption] at h
  | ok nodes =>
    simp only [hnodes, Except.toOption, Option.map_some, Option.getD_some] at h
    exact ⟨nodes, rfl, h⟩

/-- An unclosed element that declares another prefix leaves what the element around declares. -/
theorem names_resolved_in_scope_past_unclosed :
    ∃ nodes, parse (utf8 "<p xmlns:tal='urn:x'><br xmlns:y='urn:y'><b tal:content='1'></b></p>") [] = .ok nodes ∧
      ∃ p ∈ placesOf [] nodes, p.1.length = 2 ∧ ∃ b : Bindings,
        p.2 = ElementHead.ofTag b p.2.start ∧ b.get? (utf8 "tal") = some (utf8 "urn:x") := by
  obtain ⟨nodes, hnodes, p, hp, hlength, hbefore, hdeclared⟩ := exists_place_of_parse
    (utf8 "<p xmlns:tal='urn:x'><br xmlns:y='urn:y'><b tal:content='1'></b></p>")
    (P := fun p => p.1.length = 2 ∧
      (∀ r ∈ p.1, r.ancestor? = none → declared? (utf8 "tal") r.attributes = none) ∧
      declared? (utf8 "tal") ((p.1.filterMap Reach.ancestor?).flatMap (·.start.attributes) ++ p.2.start.attributes) =
        some (utf8 "urn:x")) (by decide +kernel)
  obtain ⟨b, hhead, hb⟩ := (names_resolved_in_scope hnodes).2 p.1 p.2 hp
  refine ⟨nodes, hnodes, p, hp, hlength, b, hhead, ?_⟩
  rw [(hb (utf8 "tal")).2 fun other hmem => hbefore _ hmem rfl, hdeclared, Option.some_or]

/-- A declaration on an element that is never closed reaches an element beside it: nothing around the second declares
the prefix of its attribute, nor does the element, and its default namespace is another. -/
theorem declaration_reaches_sibling :
    ∃ nodes, parse (utf8 "<p><br xmlns:tal=\"urn:x\"><b tal:content=\"1\">t</b></p>") [] = .ok nodes ∧
      ∃ p ∈ placesOf [] nodes,
        (∀ other ∈ p.1.filterMap Reach.ancestor?, other.start.attributes = []) ∧
        (∀ a ∈ p.2.start.attributes, declaredLead? a.name.value = none) ∧
        p.2.attributes.map (·.key) = [⟨utf8 "urn:x", utf8 "content"⟩] ∧
        (ElementHead.ofTag Bindings.initial p.2.start).attributes.map (·.key) = [⟨Namespace.tal, utf8 "content"⟩] :=
  exists_place_of_parse _ (by decide +kernel)

end PageTemplate.Markup
