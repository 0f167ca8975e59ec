import PageTemplate.Proofs.Numbering

/-!
What programs remember. The value of an expression is remembered to show it in the place of what the template has,
unless it is the default marker, and to leave out both tags of an element or none. What stands inside such a clause is
built before it, so all expressions in it have smaller numbers. `exists_orderly_of_compileTemplate` says so of every
node of a compiled template.
-/

namespace PageTemplate

variable {name : Bytes}

namespace Node

variable {ε δ : Type}
variable {k : Nat}

/-- The node and all nodes below it have expressions with numbers below `k` only. -/
def ReadsBelow (number : ε → Nat) (k : Nat) (n : Node ε) : Prop := n.Every fun m => ∀ e ∈ m.reads, number e < k

/-- The node remembers the value of an expression, to show it or to leave out tags, and nothing inside has an expression
of that number. -/
inductive IsClause (number : ε → Nat) : Node ε → Prop where
  | substitution {e : ε} {kept : Node ε} (raw translate : Bool) :
      kept.ReadsBelow number (number e) → IsClause number (substitution e kept raw translate)
  | omission {e : ε} (name : Bytes) {start body stop : Node ε} :
      start.ReadsBelow number (number e) → body.ReadsBelow number (number e) → stop.ReadsBelow number (number e) →
      IsClause number (omission e name start body stop)

/-- The expressions of the node have numbers below `k`, and it is a clause if it remembers something. -/
structure InOrder (number : ε → Nat) (k : Nat) (n : Node ε) : Prop where
  reads : ∀ e ∈ n.reads, number e < k
  clause {exprs : List ε} {body : Node ε} : n = .cache exprs body → n.IsClause number

/-- All that the node and the nodes below it remember are clauses. -/
def Orderly (number : ε → Nat) (k : Nat) (n : Node ε) : Prop := n.Every (InOrder number k)

theorem Orderly.readsBelow {number : ε → Nat} {n : Node ε} (h : n.Orderly number k) : n.ReadsBelow number k :=
  fun m hm => (h m hm).reads

theorem ReadsBelow.mono {number : ε → Nat} {k' : Nat} {n : Node ε} (hk : k ≤ k') (h : n.ReadsBelow number k) :
    n.ReadsBelow number k' :=
  fun m hm e he => Nat.lt_of_lt_of_le (h m hm e he) hk

theorem unlessOmitted_inj {e : ε} {n n' : Node ε} (h : unlessOmitted e n = unlessOmitted e n') : n = n' := by
  have habsent : ∀ {m : Node ε}, ¬m.isPresent = true → m = .absent := fun {m} hm => by
    cases m with
    | absent => rfl
    | _ => exact absurd rfl hm
  unfold unlessOmitted at h
  split at h <;> split at h
  · cases h
    rfl
  · cases h
  · cases h
  · next hn hn' => rw [habsent hn, habsent hn']

theorem isClause_omission {number : ε → Nat} {e : ε} {start body stop : Node ε}
    (h : (omission e name start body stop).IsClause number) :
    start.ReadsBelow number (number e) ∧ body.ReadsBelow number (number e) ∧ stop.ReadsBelow number (number e) := by
  generalize hn : omission e name start body stop = n at h
  cases h with
  | substitution => cases hn
  | omission _ hstart hbody hstop =>
    injection hn with hexprs helement
    cases hexprs
    injection helement with _ hstart' hbody' hstop'
    rw [unlessOmitted_inj hstart', hbody', unlessOmitted_inj hstop']
    exact ⟨hstart, hbody, hstop⟩

section Map

variable {number : δ → Nat} {g : ε → δ}

theorem ReadsBelow.map {n : Node ε} (h : n.ReadsBelow (number ∘ g) k) : (n.map g).ReadsBelow number k := by
  intro m hm e he
  rw [all_map] at hm
  obtain ⟨m', hm', rfl⟩ := List.mem_map.1 hm
  rw [reads_map] at he
  obtain ⟨e', he', rfl⟩ := List.mem_map.1 he
  exact h m' hm' e' he'

theorem map_unlessOmitted (e : ε) (n : Node ε) : (unlessOmitted e n).map g = unlessOmitted (g e) (n.map g) := by
  unfold unlessOmitted
  rw [isPresent_map]
  split <;> rfl

theorem map_omission (e : ε) (name : Bytes) (start body stop : Node ε) :
    (omission e name start body stop).map g = omission (g e) name (start.map g) (body.map g) (stop.map g) := by
  rw [omission, omission, Node.map, Node.map, map_unlessOmitted, map_unlessOmitted]
  rfl

theorem IsClause.map {n : Node ε} (h : n.IsClause (number ∘ g)) : (n.map g).IsClause number := by
  cases h with
  | substitution raw translate hkept => exact .substitution raw translate hkept.map
  | omission name hstart hbody hstop =>
    rw [map_omission]
    exact .omission name hstart.map hbody.map hstop.map

theorem Orderly.map {n : Node ε} (h : n.Orderly (number ∘ g) k) : (n.map g).Orderly number k := by
  intro m hm
  rw [all_map] at hm
  obtain ⟨m', hm', rfl⟩ := List.mem_map.1 hm
  obtain ⟨hreads, hclause⟩ := h m' hm'
  refine ⟨fun e he => ?_, fun {exprs body} hcache => ?_⟩
  · rw [reads_map] at he
    obtain ⟨e', he', rfl⟩ := List.mem_map.1 he
    exact hreads e' he'
  · cases m' with
    | cache exprs body => exact (hclause rfl).map
    | _ => cases hcache

end Map

end Node

namespace Builder

open Markup (Token RawAttribute ElementHead)
open Expression (Registry)

variable {st st' : State} {n : Node Expr} {r : Registry} {head : ElementHead} {stop : Option Markup.Tag}
variable {s : Surrounding} {tree : List Markup.Node} {t : Token} {ds : Directives} {written : List RawAttribute}

/-! ### Building -/

/-- The node is in order as far as the numbers drawn so far go. -/
abbrev Settled (k : Nat) (n : Node Expr) : Prop := n.Orderly Expr.id k

namespace Settled

variable {k k' : Nat} {n : Node Expr}

theorem mono (hk : k ≤ k') (h : Settled k n) : Settled k' n :=
  fun m hm => ⟨fun e he => Nat.lt_of_lt_of_le ((h m hm).reads e he) hk, (h m hm).clause⟩

theorem of_plain (h : n.Plain k) : Settled k n := by
  refine fun m hm => ⟨(h m hm).2, fun hcache => ?_⟩
  have hplain := (h m hm).1
  rw [hcache] at hplain
  cases hplain

theorem cons (below : List (Node Expr)) (hall : n.all = n :: Node.allOf below) (hn : n.InOrder Expr.id k)
    (hbelow : ∀ c ∈ below, Settled k c) : Settled k n := by
  intro m hm
  rw [hall, List.mem_cons, Node.allOf_eq_flatMap, List.mem_flatMap] at hm
  rcases hm with rfl | ⟨c, hc, hm⟩
  · exact hn
  · exact hbelow c hc m hm

theorem around (below : List (Node Expr)) (hall : n.all = n :: Node.allOf below) (hreads : Drawn k n.reads)
    (hcache : ∀ exprs body, n ≠ .cache exprs body) (hbelow : ∀ c ∈ below, Settled k c) : Settled k n :=
  cons below hall ⟨hreads, fun h => (hcache _ _ h).elim⟩ hbelow

theorem body {m : Node Expr} (hall : m.all = m :: n.all) (hreads : Drawn k m.reads)
    (hcache : ∀ exprs body, m ≠ .cache exprs body) (hn : Settled k n) : Settled k m :=
  around [n] (by simpa [Node.allOf] using hall) hreads hcache (by simpa using hn)

theorem ordinary : Ordinary Settled where
  mono := mono
  around before after hn haround hreads hplain hc := by
    refine around _ haround.all hreads (fun exprs body h => ?_) fun m hm => ?_
    · rw [h] at hn
      cases hn
    · rw [List.mem_append, List.mem_cons] at hm
      rcases hm with hm | rfl | hm
      · exact of_plain (hplain m (List.mem_append_left _ hm))
      · exact hc
      · exact of_plain (hplain m (List.mem_append_right _ hm))
  substitution {k e kept} raw translate he hkept := by
    have hread : ∀ e' ∈ [e], e'.id < e.id + 1 := by simp
    have hclause : (Node.substitution e kept raw translate).IsClause Expr.id :=
      .substitution raw translate (hkept.readsBelow.mono he)
    have hcontent : Settled (e.id + 1) (.content e raw translate) :=
      around [] rfl hread (fun _ _ h => by cases h) (by simp)
    have hcondition : Settled (e.id + 1) (.condition (.isDefault e) kept (.content e raw translate)) :=
      around _ (Node.around_condition _ _ _).all hread (fun _ _ h => by cases h)
        (by simpa using ⟨hkept.mono (by omega), hcontent⟩)
    refine cons _ ?_ ⟨hread, fun _ => hclause⟩ (List.forall_mem_singleton.2 hcondition)
    simp [Node.substitution, Node.all, Node.allOf]
  omission {k e} name {start body stop} he hstart hbody hstop := by
    have hread : ∀ e' ∈ [e], e'.id < e.id + 1 := by simp
    have hclause : (Node.omission e name start body stop).IsClause Expr.id :=
      .omission name ((of_plain hstart).readsBelow.mono he) (hbody.readsBelow.mono he)
        ((of_plain hstop).readsBelow.mono he)
    have htag : ∀ {n : Node Expr}, n.Plain k → Settled (e.id + 1) (Node.unlessOmitted e n) := fun hn =>
      of_plain (.unlessOmitted (Nat.lt_succ_self _) (hn.mono (by omega)))
    have helement : Settled (e.id + 1)
        (.element name (Node.unlessOmitted e start) body (Node.unlessOmitted e stop)) :=
      around _ (Node.around_element _ _ _ _).all (by simp [Drawn, Node.reads]) (fun _ _ h => by cases h)
        (by simpa using ⟨htag hstart, hbody.mono (by omega), htag hstop⟩)
    refine cons _ ?_ ⟨hread, fun _ => hclause⟩ (List.forall_mem_singleton.2 helement)
    simp [Node.omission, Node.all, Node.allOf]

theorem call {body : List (Node Expr)} (hbody : ∀ c ∈ body, Settled k c)
    (hall : n.all = n :: Node.allOfSlots (Node.fillsOf body)) (hreads : Drawn k n.reads)
    (hcache : ∀ exprs body, n ≠ .cache exprs body) : Settled k n := by
  intro m hm
  rw [hall, List.mem_cons, Node.allOfSlots_eq_flatMap, List.mem_flatMap] at hm
  rcases hm with rfl | ⟨c, hc, hm⟩
  · exact ⟨hreads, fun h => (hcache _ _ h).elim⟩
  · obtain ⟨s, hs, rfl⟩ := List.mem_map.1 hc
    have hm := Node.all_subset_of_mem_fillsOf hs hm
    rw [Node.allOf_eq_flatMap, List.mem_flatMap] at hm
    obtain ⟨c, hc, hm⟩ := hm
    exact hbody c hc m hm

end Settled

/-- The macros that have been registered have names and are in order. -/
def State.Tidy (st : State) : Prop := ∀ q ∈ st.macros, q.1 ≠ [] ∧ Settled st.nextExpr q.2

theorem State.Agrees.tidy (h : st.Agrees st') (hst : st.Tidy) : st'.Tidy := by
  intro q hq
  rw [h.nextExpr]
  exact hst q (h.macros ▸ hq)

theorem State.Tidy.draw (hst : st.Tidy) {k : Nat} (hk : st.nextExpr ≤ k) :
    State.Tidy { st with nextExpr := k } := fun q hq => (hst q hq).imp_right (·.mono hk)

/-- Numbers are drawn, and the macros stay in order. -/
structure Tidies (st st' : State) : Prop where
  le : st.nextExpr ≤ st'.nextExpr
  tidy : st.Tidy → st'.Tidy

theorem steps_tidies : Steps Tidies where
  refl _ := ⟨Nat.le_refl _, id⟩
  trans h h' := ⟨Nat.le_trans h.le h'.le, fun hst => h'.tidy (h.tidy hst)⟩
  le h := h.le
  draw _ := ⟨Nat.le_succ _, fun hst => hst.draw (Nat.le_succ _)⟩

theorem tidies_of_enter {numbers : Nat × Nat} (h : (enter s ds).run st = .ok (numbers, st')) : Tidies st st' := by
  obtain ⟨_, _, hagrees⟩ := agrees_of_enter h
  refine ⟨Nat.le_of_eq (.symm (hagrees.nextExpr.trans (by split <;> rfl))), fun hst => hagrees.tidy ?_⟩
  split <;> exact hst

/-- Whatever is built is in order, and so are the macros. -/
theorem assembling_settled (r : Registry) : Assembling r (· = ·) (fun _ => True) (fun _ => True) (fun _ => True)
    (Stepping Tidies) DrawnBetween (fun n m _ => m.Plain n) (fun n m _ => Settled n m) where
  toEnclosing := ⟨⟨steps_tidies.logic r, leafRules_plain r⟩, Settled.ordinary.nodeRules⟩
  admits _ _ := admits_plain r _ _ _
  leaf := .of_plain
  sequence hcs := .around _ rfl (by simp [Drawn, Node.reads]) nofun (forall_of_forall₂ hcs)
  switch _ he hc := .body rfl (by simpa [Drawn, Node.reads] using he.2) nofun hc
  case _ he hc := .body rfl (by simpa [Drawn, Node.reads] using he.2) nofun hc
  fillSlot _ hc := .body rfl (by simp [Drawn, Node.reads]) nofun hc
  call extend _ _ hcs st n st' hk hrun := by
    have hbody : ∀ k', st.nextExpr ≤ k' → ∀ c ∈ _, Settled k' c := fun k' hk' =>
      forall_of_forall₂ (hcs k' (Nat.le_trans hk hk'))
    rcases exists_of_macroCall hrun with ⟨name, calls, rfl, rfl⟩ | ⟨e, rfl, he, rfl⟩
    · refine ⟨⟨Nat.le_refl _, id⟩, default, fun k' hk' => ?_⟩
      exact .call (hbody k' hk') rfl (by simp [Drawn, Node.reads]) (fun _ _ h => by cases h)
    · refine ⟨steps_tidies.draw st, default, fun k' hk' => ?_⟩
      exact .call (hbody k' (Nat.le_of_succ_le hk')) rfl (by simpa [Drawn, Node.reads, he] using Nat.lt_of_succ_le hk')
        (fun _ _ h => by cases h)
  defineMacro _ hc st n st' hk hrun := by
    obtain ⟨name, hname, rfl, rfl⟩ := exists_of_defineMacro hrun
    refine ⟨⟨Nat.le_refl _, fun hst => List.forall_mem_cons.2 ⟨⟨hname, hc _ hk⟩, hst⟩⟩, default, fun k' hk' => ?_⟩
    exact .body rfl (by simp [Drawn, Node.reads]) nofun (hc k' (Nat.le_trans hk hk'))
  enter {_} _ {_ _} _ st numbers st' _ hrun := ⟨tidies_of_enter hrun, numbers, fun _ _ => rfl⟩
  closeMessage _ st a st' _ hrun := by
    cases hrun
    refine ⟨?_, (), fun _ _ => trivial⟩
    split <;> exact ⟨Nat.le_refl _, id⟩

theorem settled_of_nodes {whitespace : Bytes} {ns : List (Node Expr)}
    (h : (nodes s whitespace tree).run st = .ok (ns, st')) : Tidies st st' ∧ ∀ n ∈ ns, Settled st'.nextExpr n := by
  obtain ⟨htidies, _, hns⟩ := (assembling_settled s.registry).nodes whitespace 0 (.refl tree) (fun _ _ => trivial)
    (fun _ _ => trivial) st ns st' (Nat.zero_le _) h
  exact ⟨htidies, forall_of_forall₂ (hns _ (Nat.le_refl _))⟩

/-! ### The clauses of an element -/

theorem exists_of_expression {e : Expr} (h : (expression r t).run st = .ok (e, st')) :
    e = { id := st.nextExpr, source := t.value, token := t } ∧ st' = { st with nextExpr := st.nextExpr + 1 } := by
  unfold expression at h
  split at h
  · cases h
  · cases h
    exact ⟨rfl, rfl⟩

theorem exists_of_substitute {kept : Node Expr} {translate : Bool}
    (h : (substitute r t kept translate).run st = .ok (n, st')) :
    ∃ e, e.token = (Clause.substitution t).1 ∧ n = .substitution e kept (Clause.substitution t).2 translate := by
  obtain ⟨e, st₁, he, h⟩ := run_bind_eq_ok.1 h
  cases h
  obtain ⟨rfl, _⟩ := exists_of_expression he
  exact ⟨_, rfl, rfl⟩

/-- The clauses of an element that calls no macro are clauses of its program: a value for its children, a value for the
whole element, and one that decides about its tags, if it has any. -/
structure HasClauses (head : ElementHead) (ds : Directives) (n : Node Expr) : Prop where
  content {t : Token} : ds.clause? .content = some t → ∃ e kept, e.token = (Clause.substitution t).1 ∧
    Node.substitution e kept (Clause.substitution t).2 (ds.has .translate) ∈ n.all
  replace {t : Token} : ds.clause? .replace = some t → ∃ e kept, e.token = (Clause.substitution t).1 ∧
    n = .substitution e kept (Clause.substitution t).2 (ds.has .translate)
  omitTag {t : Token} : ds.clause? .omitTag = some t → Text.trim t.value ≠ [] →
    Markup.Namespace.isDirective head.key.space = false →
    ∃ e start body stop, e.token = t.trim ∧ start.isPresent = true ∧ Node.omission e head.name start body stop ∈ n.all

theorem isPresent_of_tags {forceEnd : Bool} {p : Node Expr × Node Expr}
    (hspace : Markup.Namespace.isDirective head.key.space = false)
    (h : (tags r head stop ds written forceEnd).run st = .ok (p, st')) : p.1.isPresent = true := by
  unfold tags at h
  rw [if_neg (by simp [hspace])] at h
  obtain ⟨attributes, st₁, _, h⟩ := run_bind_eq_ok.1 h
  cases h
  unfold tagsWith
  dsimp only
  split
  · rfl
  · split <;> rfl

theorem exists_of_tagged {start body stop : Node Expr}
    (h : (tagged r ds name start body stop).run st = .ok (n, st')) :
    body.all ⊆ n.all ∧ (∀ t, ds.clause? .omitTag = some t → Text.trim t.value ≠ [] → start.isPresent = true →
      ∃ e, e.token = t.trim ∧ n = .omission e name start body stop) := by
  have helement : ∀ start stop : Node Expr, body.all ⊆ (Node.element name start body stop).all := by
    intro start stop m hm
    simp [Node.all, hm]
  unfold tagged at h
  split at h
  · next t ht =>
    rw [ht]
    split at h
    · next hstart =>
      cases h
      refine ⟨helement _ _, fun _ _ _ hpresent => ?_⟩
      rw [hpresent] at hstart
      cases hstart
    · split at h
      · next hempty =>
        cases h
        refine ⟨helement _ _, fun t' ht' hne => ?_⟩
        cases ht'
        exact absurd (List.isEmpty_iff.1 hempty) hne
      · obtain ⟨e, st₁, he, h⟩ := run_bind_eq_ok.1 h
        cases h
        refine ⟨fun m hm => List.mem_cons_of_mem _ (helement _ _ hm), fun t' ht' _ _ => ?_⟩
        cases ht'
        exact ⟨e, by rw [(exists_of_expression he).1], rfl⟩
  · next ht =>
    cases h
    refine ⟨helement _ _, fun t' ht' => ?_⟩
    rw [ht] at ht'
    cases ht'

theorem hasClauses_of_element {children : Node Expr}
    (h : (element r head stop ds written children).run st = .ok (n, st')) : HasClauses head ds n := by
  obtain ⟨body, st₁, hcontent, h⟩ := run_bind_eq_ok.1 h
  obtain ⟨node, st₂, henclose, h⟩ := run_bind_eq_ok.1 h
  obtain ⟨⟨start, stop⟩, st₃, htags, htagged⟩ := run_bind_eq_ok.1 henclose
  obtain ⟨hbody, homit⟩ := exists_of_tagged htagged
  have hnode : node.all ⊆ n.all ∧ ∀ t, ds.clause? .replace = some t → ∃ e kept, e.token = (Clause.substitution t).1 ∧
      n = .substitution e kept (Clause.substitution t).2 (ds.has .translate) := by
    unfold replaced at h
    split at h
    · next t ht =>
      obtain ⟨e, he, rfl⟩ := exists_of_substitute h
      refine ⟨fun m hm => ?_, fun t' ht' => ?_⟩
      · simp [Node.substitution, Node.all, hm]
      · rw [ht] at ht'
        cases ht'
        exact ⟨e, node, he, rfl⟩
    · next ht =>
      cases h
      refine ⟨List.Subset.refl _, fun t' ht' => ?_⟩
      rw [ht] at ht'
      cases ht'
  refine ⟨fun {t} ht => ?_, fun {t} ht => hnode.2 t ht, fun {t} ht hne hspace => ?_⟩
  · unfold content at hcontent
    rw [ht] at hcontent
    obtain ⟨e, he, rfl⟩ := exists_of_substitute hcontent
    exact ⟨e, _, he, hnode.1 (hbody List.mem_cons_self)⟩
  · have hpresent := isPresent_of_tags hspace htags
    obtain ⟨e, he, rfl⟩ := homit t ht hne hpresent
    exact ⟨e, start, body, stop, he, hpresent, hnode.1 List.mem_cons_self⟩

theorem exists_orderly_of_build {filename source : Bytes} {m : Module} (h : build r filename source tree = .ok m) :
    ∃ k, m.body.Orderly Expr.id k ∧ ∀ q ∈ m.macros, q.1 ≠ [] ∧ q.2.Orderly Expr.id k := by
  obtain ⟨ns, st, hns, hbody, hmacros⟩ := exists_nodes_of_build h
  obtain ⟨htidies, hsettled⟩ := settled_of_nodes hns
  refine ⟨st.nextExpr, ?_, fun q hq => htidies.tidy (by simp [State.Tidy]) q ?_⟩
  · rw [hbody]
    exact Settled.around ns rfl (by simp [Drawn, Node.reads]) nofun hsettled
  · rwa [hmacros, List.mem_reverse] at hq

end Builder

theorem exists_orderly_of_compileTemplate {r : Expression.Registry} {filename source : Bytes} {settings : Nat} {p : Program}
    (h : compileTemplate r filename source settings = .ok p) :
    ∃ k, p.main.Orderly Compiled.id k ∧ ∀ q ∈ p.macros, q.2.Orderly Compiled.id k := by
  obtain ⟨tree, m, _, hbuild, hmain, hmacros⟩ := exists_module_of_compileTemplate h
  obtain ⟨k, hbody, hbodies⟩ := Builder.exists_orderly_of_build hbuild
  refine ⟨k, hmain.eq_map ▸ .map hbody, fun q hq => ?_⟩
  obtain ⟨q', hq', _, hcompiles⟩ := exists_of_forall₂ hmacros hq
  exact hcompiles.eq_map ▸ .map (hbodies q' hq').2

end PageTemplate
