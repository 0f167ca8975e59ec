import PageTemplate.Proofs.Building

/-!
The numbers of expressions. Building a template draws a new number for each expression. What belongs to one element is
put around its children in a fixed order, nearly all of it in ordinary nodes, of which only the drawn expressions
matter. `Ordinary` says what makes an element have a property if its children do.
-/

namespace PageTemplate

namespace Node

variable {ε : Type}

/-- The node writes something, or is an element or a condition around nodes that do. -/
def isPlain : Node ε → Bool
  | .text _ | .interpolation _ _ | .element _ _ _ _ | .startTag _ _ _ _ | .attr _ | .attributeMap _ _ | .content _ _ _
  | .condition _ _ _ | .omitted => true
  | _ => false

/-- The node has to do neither with switches nor with slots, and it remembers nothing. -/
def isOrdinary : Node ε → Bool
  | .switch _ _ _ | .case _ _ _ | .fillSlot _ _ | .useInternal _ _ _ | .useExternal _ _ _ | .cache _ _ => false
  | _ => true

/-- What stands directly below a node. Some of it may be absent. -/
structure Around (n : Node ε) (below : List (Node ε)) : Prop where
  all : n.all = n :: allOf below
  fills : n.fills = fillsOf below
  children : n.children ⊆ below

theorem Around.body {n body : Node ε} (hall : n.all = n :: body.all) (hfills : n.fills = body.fills)
    (hchildren : n.children = [body].filter isPresent) : n.Around [body] := by
  refine ⟨by simp [hall, allOf], by simp [hfills, fillsOf], ?_⟩
  rw [hchildren]
  exact List.filter_subset_self _

theorem around_element (name : Bytes) (start body stop : Node ε) :
    (element name start body stop).Around [start, body, stop] :=
  ⟨by simp [all, allOf], by simp [fills, fillsOf], List.filter_subset_self _⟩

theorem around_condition (test : Operand ε) (yes no : Node ε) : (condition test yes no).Around [yes, no] :=
  ⟨by simp [all, allOf], by simp [fills, fillsOf], List.filter_subset_self _⟩

theorem around_onError (body fallback : Node ε) : (onError body fallback).Around [body, fallback] :=
  ⟨by simp [all, allOf], by simp [fills, fillsOf], List.filter_subset_self _⟩

theorem around_sequence (nodes : List (Node ε)) : (sequence nodes).Around nodes :=
  ⟨rfl, rfl, List.Subset.refl _⟩

/-- The node writes something by expressions whose numbers have been drawn. -/
def Plain (k : Nat) (n : Node Expr) : Prop := n.Every fun m => m.isPlain = true ∧ ∀ e ∈ m.reads, e.id < k

namespace Plain

variable {k k' : Nat} {n : Node Expr}

theorem mono (h : k ≤ k') (hn : n.Plain k) : n.Plain k' :=
  fun m hm => ⟨(hn m hm).1, fun e he => Nat.lt_of_lt_of_le ((hn m hm).2 e he) h⟩

theorem absent : (Node.absent : Node Expr).Plain k := fun m hm => by simp [Node.all] at hm

theorem leaf (hall : n.all = [n]) (hplain : n.isPlain = true) (hreads : ∀ e ∈ n.reads, e.id < k) : n.Plain k := by
  intro m hm
  rw [hall, List.mem_singleton] at hm
  exact hm ▸ ⟨hplain, hreads⟩

theorem text (s : Bytes) : (Node.text s : Node Expr).Plain k := leaf rfl rfl (by simp [Node.reads])

theorem around {below : List (Node Expr)} (hn : n.Around below) (hplain : n.isPlain = true)
    (hreads : ∀ e ∈ n.reads, e.id < k) (hbelow : ∀ m ∈ below, m.Plain k) : n.Plain k := by
  intro m hm
  rw [hn.all, List.mem_cons, Node.allOf_eq_flatMap, List.mem_flatMap] at hm
  rcases hm with rfl | ⟨c, hc, hm⟩
  · exact ⟨hplain, hreads⟩
  · exact hbelow c hc m hm

theorem element (name : Bytes) {start body stop : Node Expr} (hstart : start.Plain k) (hbody : body.Plain k)
    (hstop : stop.Plain k) : (Node.element name start body stop).Plain k :=
  around (around_element name start body stop) rfl (by simp [Node.reads]) (by simp [hstart, hbody, hstop])

theorem unlessOmitted {e : Expr} (he : e.id < k) (hn : n.Plain k) : (Node.unlessOmitted e n).Plain k := by
  unfold Node.unlessOmitted
  split
  · exact around (around_condition _ _ _) rfl (by simpa [Node.reads, Operand.exprs] using he) (by simpa using ⟨hn, absent⟩)
  · exact absent

theorem fills (h : n.Plain k) : n.fills = [] := by
  rw [List.eq_nil_iff_forall_not_mem]
  intro s hs
  have hfill := (h _ (Node.all_subset_of_mem_fills hs List.mem_cons_self)).1
  simp [isPlain] at hfill

end Plain

end Node

namespace Builder

open Markup (Token RawAttribute ElementHead)
open Expression (Registry)

variable {st st' : State} {n : Nat} {slots : List AttributeSlot} {ds : Directives} {s : Surrounding}
variable (r : Registry)
variable {t : Token}

@[simp] theorem run_bind_eq_ok {α β : Type} {x : Build α} {f : α → Build β} {p : β × State} :
    (x >>= f).run st = .ok p ↔ ∃ a st', x.run st = .ok (a, st') ∧ (f a).run st' = .ok p := by
  rw [StateT.run_bind]
  cases h : x.run st with
  | error e => simp [bind, Except.bind]
  | ok q =>
    obtain ⟨a, st'⟩ := q
    simp [bind, Except.bind]

@[simp] theorem run_liftM_eq_ok {α : Type} {x : Except Failure α} {a : α} :
    (liftM x : Build α).run st = .ok (a, st') ↔ x = .ok a ∧ st' = st := by
  cases x with
  | error f => exact ⟨nofun, nofun⟩
  | ok b =>
    constructor
    · intro h
      cases h
      exact ⟨rfl, rfl⟩
    · rintro ⟨h, rfl⟩
      cases h
      rfl

/-- Building only draws numbers, if those below `k` were drawn before, and the result depends on how many there are. -/
def Draws (k : Nat) {α : Type} (Q : Nat → α → Prop) (act : Build α) : Prop :=
  ∀ st a st', k ≤ st.nextExpr → act.run st = .ok (a, st') →
    ∃ n, st.nextExpr ≤ n ∧ st' = { st with nextExpr := n } ∧ Q n a

/-- The expressions have numbers that have been drawn. -/
abbrev Drawn (n : Nat) (es : List Expr) : Prop := ∀ e ∈ es, e.id < n

/-- What is asked of a relation of states so that the steps of building can be followed in it. -/
structure Steps (T : State → State → Prop) : Prop where
  refl (st : State) : T st st
  trans {st₁ st₂ st₃ : State} : T st₁ st₂ → T st₂ st₃ → T st₁ st₃
  le {st st' : State} : T st st' → st.nextExpr ≤ st'.nextExpr
  draw (st : State) : T st { st with nextExpr := st.nextExpr + 1 }

/-- Building in steps of a kind, as a relation that looks at one side only. -/
abbrev Stepping (T : State → State → Prop) : Judgement := fun k Q act _ =>
  ∀ st a st', k ≤ st.nextExpr → act.run st = .ok (a, st') → T st st' ∧ Matched st'.nextExpr Q a

/-- The expression was drawn between two numbers. -/
abbrev DrawnBetween : Exprs := fun k n _ e _ => k ≤ e.id ∧ e.id < n

theorem Steps.logic {T : State → State → Prop} (hT : Steps T) :
    Logic r (· = ·) (fun _ => True) (fun _ => True) (Stepping T) DrawnBetween where
  toPlacing := Markup.placing_eq
  pure h st a st' hk hrun := by
    cases hrun
    exact ⟨hT.refl st, _, h.mono hk⟩
  throw _ st a st' _ hrun := by cases hrun
  bind hact hf st b st' hk hrun := by
    obtain ⟨a, st₁, hrun₁, hrun₂⟩ := run_bind_eq_ok.1 hrun
    obtain ⟨hfirst, c, hc⟩ := hact st a st₁ hk hrun₁
    obtain ⟨hrest, hb⟩ := hf _ a c (Nat.le_trans hk (hT.le hfirst)) hc st₁ b st' (Nat.le_refl _) hrun₂
    exact ⟨hT.trans hfirst hrest, hb⟩
  lift_bind _ hanswers hf st b st' hk hrun := by
    obtain ⟨a, _, hlift, hrest⟩ := run_bind_eq_ok.1 hrun
    obtain ⟨ha, rfl⟩ := run_liftM_eq_ok.1 hlift
    obtain ⟨c, _, hc⟩ := hanswers a ha
    exact hf a c ha hc _ b st' hk hrest
  known h st a st' hk hrun := by
    obtain ⟨hstep, b, hb⟩ := h st a st' hk hrun
    exact ⟨hstep, b, fun n hn => ⟨hb n hn, st, st', hrun⟩⟩
  expression _ _ _ st e st' hk hrun := by
    unfold expression at hrun
    split at hrun
    · cases hrun
    · cases hrun
      exact ⟨hT.draw st, default, fun _ hn => ⟨hk, hn⟩⟩
  unlocated _ := trivial
  splitting _ := trivial

/-- Nothing but numbers of expressions has been drawn. -/
def OnlyDraws (st st' : State) : Prop := ∃ n, st.nextExpr ≤ n ∧ st' = { st with nextExpr := n }

theorem steps_onlyDraws : Steps OnlyDraws where
  refl st := ⟨_, Nat.le_refl _, rfl⟩
  trans := by
    rintro _ _ _ ⟨n, hn, rfl⟩ ⟨n', hn', rfl⟩
    exact ⟨n', Nat.le_trans hn hn', rfl⟩
  le := by
    rintro _ _ ⟨n, hn, rfl⟩
    exact hn
  draw st := ⟨_, Nat.le_succ _, rfl⟩

theorem Draws.of_stepping {k : Nat} {G : Nat → Node Expr → Prop} {act act' : Build (Node Expr)}
    (h : Stepping OnlyDraws k (fun n m _ => G n m) act act') : Draws k G act := by
  intro st a st' hk hrun
  obtain ⟨⟨n, hn, rfl⟩, _, ha⟩ := h st a st' hk hrun
  exact ⟨n, hn, rfl, ha n (Nat.le_refl n)⟩

theorem leafRules_plain : LeafRules r DrawnBetween (fun n m _ => m.Plain n) where
  older he := ⟨Nat.zero_le _, he.2⟩
  text := .text
  omitted := .leaf rfl rfl (by simp [Node.reads])
  absent := .absent
  interpolation _ hps := .leaf rfl rfl fun _ he => (exists_of_mem_parts hps he).elim fun _ h => h.2
  shown _ he := .leaf rfl rfl (by simpa [Node.reads] using he.2)
  element name := .element name

theorem plain_startTag (lead name tail : Bytes) {attributes attributes' : List (Node Expr)}
    (h : List.Forall₂ (AttributeCoupled r DrawnBetween n) attributes attributes') :
    (Node.startTag lead name attributes tail).Plain n := by
  refine .around ⟨rfl, rfl, List.Subset.refl _⟩ rfl (by simp [Node.reads]) fun m hm => ?_
  obtain ⟨_, _, hattribute⟩ := exists_of_forall₂ h.flip hm
  have hreads : ∀ e ∈ m.reads, e.id < n := fun e he => (hattribute.exists_of_mem_reads he).elim fun _ h => h.2
  cases hattribute with
  | text _ | attr _ | attributeMap _ _ => exact .leaf rfl rfl hreads

theorem admits_plain (head : ElementHead) (ds : Directives) (written : List RawAttribute) :
    Admits r (fun _ => True) DrawnBetween (fun n m _ => m.Plain n) head ds written where
  clauses _ _ _ := trivial
  values _ _ := trivial
  opens _ h _ _ := plain_startTag r _ _ _ h
  opensWritten _ _ _ _ _ := plain_startTag r _ _ _ (forall₂_written _ _ _ written)

theorem draws_textNode (t : Token) (k : Nat) : Draws k (fun n m => m.Plain n) (textNode r t) :=
  .of_stepping (Coupling.textNode ⟨steps_onlyDraws.logic r, leafRules_plain r⟩ trivial rfl)

/-- What a property of nodes needs so that an element can be put around nodes that have it. It may depend on how many
numbers are drawn. -/
structure Ordinary (G : Nat → Node Expr → Prop) : Prop where
  mono {k k' : Nat} {n : Node Expr} : k ≤ k' → G k n → G k' n
  around {k : Nat} {n c : Node Expr} (before after : List (Node Expr)) : n.isOrdinary = true →
    n.Around (before ++ c :: after) → Drawn k n.reads → (∀ m ∈ before ++ after, m.Plain k) → G k c → G k n
  substitution {k : Nat} {e : Expr} {kept : Node Expr} (raw translate : Bool) : k ≤ e.id → G k kept →
    G (e.id + 1) (.substitution e kept raw translate)
  omission {k : Nat} {e : Expr} (name : Bytes) {start body stop : Node Expr} : k ≤ e.id → start.Plain k → G k body →
    stop.Plain k → G (e.id + 1) (.omission e name start body stop)

namespace Ordinary

variable {G : Nat → Node Expr → Prop} (hG : Ordinary G) {k : Nat} (r : Registry)
variable {children : Node Expr}
include hG

theorem body {n c : Node Expr} (hn : n.isOrdinary = true) (haround : n.Around [c]) (hreads : Drawn k n.reads)
    (hc : G k c) : G k n :=
  hG.around [] [] hn haround hreads (by simp) hc

theorem silent {n c : Node Expr} (hn : n.isOrdinary = true) (haround : n.Around [c]) (hreads : n.reads = [])
    (hc : G k c) : G k n :=
  hG.body hn haround (by simp [Drawn, hreads]) hc

theorem nodeRules : NodeRules DrawnBetween (fun n m _ => m.Plain n) (fun n m _ => G n m) where
  frame hf hc := by cases hf <;> exact hG.silent rfl (.body rfl rfl rfl) rfl hc
  substitution raw translate he hc := hG.mono he.2 (hG.substitution raw translate he.1 hc)
  tagged name hstart hc hstop :=
    hG.around [_] [_] rfl (Node.around_element name _ _ _) (by simp [Drawn, Node.reads]) (by simp [hstart, hstop]) hc
  omission name he hp hc := hG.mono he.2 (hG.omission name he.1 hp.start hc hp.stop)
  loop _ _ he hc := hG.body rfl (.body rfl rfl rfl) (by simpa [Drawn, Node.reads] using he.2) hc
  condition he hc := hG.around [] [.absent] rfl (Node.around_condition _ _ _)
    (by simpa [Drawn, Node.reads, Operand.exprs] using he.2) (by simpa using .absent) hc
  define _ has hc := by
    refine hG.body rfl (.body rfl rfl rfl) (fun e he => ?_) hc
    obtain ⟨a, ha, rfl⟩ := List.mem_map.1 he
    obtain ⟨_, _, hpaired⟩ := exists_of_forall₂ has.flip ha
    obtain ⟨hdrawn⟩ := hpaired
    exact hdrawn.2
  onError hc hd :=
    hG.around [] [_] rfl (Node.around_onError _ _) (by simp [Drawn, Node.reads]) (by simpa using hd) hc

theorem enclosing : Enclosing r (· = ·) (fun _ => True) (fun _ => True) (Stepping OnlyDraws) DrawnBetween
    (fun n m _ => m.Plain n)
    (fun n m _ => G n m) :=
  ⟨⟨steps_onlyDraws.logic r, leafRules_plain r⟩, hG.nodeRules⟩

variable (ds : Directives) {n : Node Expr}

theorem after (hn : G k n) : From k (fun n m _ => G n m) n n := fun _ hk => hG.mono hk hn

theorem controlled {G' : Nat → Node Expr → Prop} (whitespace : Bytes) (caseSwitch switchId : Nat)
    (hswitch : ∀ t, ds.clause? .switch = some t → ∀ e k', k ≤ e.id → e.id < k' → G k' (.switch switchId e n))
    (hopen : ds.clause? .switch = none → G k n)
    (hcase : ∀ t, ds.clause? .case = some t → ∀ k' n e, e.id < k' → G k' n → G k' (.case caseSwitch (some e) n))
    (hfill : ∀ t, ds.clause? .fillSlot = some t → ∀ k' n, G k' n → G' k' (.fillSlot (Text.trim t.value) n))
    (hfree : ds.clause? .fillSlot = none → ∀ k' n, G k' n → G' k' n) :
    Draws k G' (controlled r ds whitespace caseSwitch switchId n) :=
  .of_stepping ((hG.enclosing r).controlled (.refl ds) (fun _ _ _ => trivial) whitespace caseSwitch switchId
    (fun t ht k' e _ _ he => hswitch t ht e k' he.1 he.2) (fun ht => hG.after (hopen ht))
    (fun t ht k' n _ e _ he => hcase t ht k' n e he.2) (fun t ht k' n _ => hfill t ht k' n)
    fun ht k' n _ => hfree ht k' n)

variable (head : ElementHead) (stop : Option Markup.Tag) (written : List RawAttribute)

theorem element (hn : G k n) : Draws k G (element r head stop ds written n) :=
  .of_stepping ((hG.enclosing r).wholeElement (admits_plain r head ds written) (.refl ..) (hG.after hn))

theorem enclosed (hn : G k n) : Draws k G (enclosed r head stop ds written n) :=
  .of_stepping ((hG.enclosing r).enclosed (admits_plain r head ds written) (.refl ..) (hG.after hn))

end Ordinary

/-! ### The steps of an element -/

theorem has_eq_true_iff {d : Directive} : ds.has d = true ↔ ∃ t, ds.clause? d = some t := by
  simp [Directives.has, Directives.clause?, Option.isSome_iff_exists]

theorem has_eq_false_iff {d : Directive} : ds.has d = false ↔ ds.clause? d = none := by
  simp [Directives.has, Directives.clause?]

theorem exists_of_defineMacro {n n' : Node Expr} (h : (defineMacro t n).run st = .ok (n', st')) :
    ∃ name, name ≠ [] ∧ n' = .macroDef name n ∧ st' = { st with macros := (name, n) :: st.macros } := by
  refine ⟨Text.trim t.value, ?_⟩
  unfold defineMacro at h
  dsimp only at h
  split at h
  · cases h
  · next hname =>
    obtain ⟨_, _, hget, h⟩ := run_bind_eq_ok.1 h
    cases hget
    split at h
    · cases h
    · cases h
      exact ⟨by simpa using hname, rfl, rfl⟩

theorem exists_of_defining {n n' : Node Expr} (h : (wrapping ds .defineMacro n defineMacro).run st = .ok (n', st')) :
    n' = n ∧ st' = st ∨
      ∃ name, name ≠ [] ∧ n' = .macroDef name n ∧ st' = { st with macros := (name, n) :: st.macros } := by
  unfold wrapping at h
  split at h
  · exact .inr (exists_of_defineMacro h)
  · cases h
    exact .inl ⟨rfl, rfl⟩

theorem exists_of_macroCall {r : Registry} {extend : Bool} {slots : List (Bytes × Node Expr)}
    {n : Node Expr} (h : (macroCall r t extend slots).run st = .ok (n, st')) :
    (∃ name calls, n = .useInternal name slots extend ∧ st' = { st with calls }) ∨
      ∃ e, n = .useExternal e slots extend ∧ e.id = st.nextExpr ∧ st' = { st with nextExpr := st.nextExpr + 1 } := by
  unfold macroCall at h
  dsimp only at h
  split at h
  · next name _ =>
    cases h
    exact .inl ⟨name, _, rfl, rfl⟩
  · obtain ⟨e, st₁, hexpression, h⟩ := run_bind_eq_ok.1 h
    cases h
    unfold expression at hexpression
    split at hexpression
    · cases hexpression
    · cases hexpression
      exact .inr ⟨_, rfl, rfl, rfl⟩

/-- Nothing but what has been noted of the messages that are open differs. -/
structure State.Agrees (st st' : State) : Prop where
  nextExpr : st'.nextExpr = st.nextExpr
  nextSwitch : st'.nextSwitch = st.nextSwitch
  macros : st'.macros = st.macros

theorem State.Agrees.refl (st : State) : st.Agrees st := ⟨rfl, rfl, rfl⟩

theorem State.Agrees.trans {st₁ st₂ : State} (h : st.Agrees st₁) (h' : st₁.Agrees st₂) : st.Agrees st₂ :=
  ⟨h'.nextExpr.trans h.nextExpr, h'.nextSwitch.trans h.nextSwitch, h'.macros.trans h.macros⟩

theorem agrees_of_notePart (h : (notePart ds).run st = .ok ((), st')) :
    st.Agrees st' := by
  unfold notePart at h
  split at h
  · obtain ⟨_, _, hget, h⟩ := run_bind_eq_ok.1 h
    cases hget
    split at h
    · cases h
      exact .refl _
    · split at h
      · cases h
      · cases h
        exact ⟨rfl, rfl, rfl⟩
  · cases h
    exact .refl _

theorem eq_of_checkFill (h : (checkFill s ds).run st = .ok ((), st')) : st' = st := by
  unfold checkFill at h
  split at h
  · split at h
    · cases h
      rfl
    · cases h
  · cases h
    rfl

theorem head_of_caseSwitch {case : Nat} (h : (caseSwitch s ds).run st = .ok (case, st')) :
    st' = st ∧ ∀ t, ds.clause? .case = some t → s.switches.head? = some case := by
  unfold caseSwitch at h
  split at h
  · cases h
  · next hswitches =>
    cases h
    exact ⟨rfl, fun _ _ => by rw [hswitches]; rfl⟩
  · next hnone =>
    cases h
    exact ⟨rfl, fun t ht => by rw [hnone] at ht; cases ht⟩

theorem agrees_of_enter {numbers : Nat × Nat} (h : (enter s ds).run st = .ok (numbers, st')) :
    numbers.2 = st.nextSwitch ∧ (∀ t, ds.clause? .case = some t → s.switches.head? = some numbers.1) ∧
      State.Agrees (if ds.has .switch then { st with nextSwitch := st.nextSwitch + 1 } else st) st' := by
  obtain ⟨case, _, hcase, h⟩ := run_bind_eq_ok.1 h
  obtain ⟨switch, _, hswitch, h⟩ := run_bind_eq_ok.1 h
  obtain ⟨_, _, hfill, h⟩ := run_bind_eq_ok.1 h
  obtain ⟨_, st₁, hpart, h⟩ := run_bind_eq_ok.1 h
  obtain ⟨_, _, hopen, h⟩ := run_bind_eq_ok.1 h
  cases h
  obtain ⟨rfl, hhead⟩ := head_of_caseSwitch hcase
  cases hswitch
  cases eq_of_checkFill hfill
  have hopened : st₁.Agrees st' := by
    cases hopen
    split <;> exact ⟨rfl, rfl, rfl⟩
  exact ⟨rfl, hhead, (agrees_of_notePart hpart).trans hopened⟩

/-- An element is built in steps: its children, the element or the macro call, then the directives around it. -/
theorem exists_of_node {whitespace : Bytes} {head : ElementHead} {children : List Markup.Node}
    {stop : Option Markup.Tag} {p : Node Expr × Bytes}
    (h : (node s whitespace (.element head children stop)).run st = .ok (p, st')) :
    ∃ ds written case st₁ body st₂ content st₃ st₄,
      Directives.classify head.attributes [] = .ok (ds, written) ∧
      (∀ t, ds.clause? .case = some t → s.switches.head? = some case) ∧
      State.Agrees (if ds.has .switch then { st with nextSwitch := st.nextSwitch + 1 } else st) st₁ ∧
      (nodes (inside s ds st.nextSwitch) [] children).run st₁ = .ok (body, st₂) ∧
      (elementOrCall s.registry head stop ds written body).run st₂ = .ok (content, st₃) ∧
      (wrap s.registry head stop ds written whitespace case st.nextSwitch content).run st₃ = .ok (p.1, st₄) ∧
      st₄.Agrees st' := by
  rw [node_element] at h
  obtain ⟨⟨ds, written⟩, _, hclassify, h⟩ := run_bind_eq_ok.1 h
  obtain ⟨_, _, hexclusions, h⟩ := run_bind_eq_ok.1 h
  obtain ⟨⟨case, switch⟩, st₁, henter, h⟩ := run_bind_eq_ok.1 h
  obtain ⟨body, st₂, hbody, h⟩ := run_bind_eq_ok.1 h
  obtain ⟨content, st₃, hcontent, h⟩ := run_bind_eq_ok.1 h
  obtain ⟨result, st₄, hresult, h⟩ := run_bind_eq_ok.1 h
  obtain ⟨_, _, hclose, h⟩ := run_bind_eq_ok.1 h
  cases h
  obtain ⟨hds, rfl⟩ := run_liftM_eq_ok.1 hclassify
  obtain ⟨_, rfl⟩ := run_liftM_eq_ok.1 hexclusions
  obtain ⟨rfl, hhead, hagrees⟩ := agrees_of_enter henter
  have hclosed : st₄.Agrees st' := by
    cases hclose
    split <;> exact ⟨rfl, rfl, rfl⟩
  exact ⟨ds, written, case, st₁, body, st₂, content, st₃, st₄, hds, hhead, hagrees, hbody, hcontent, hresult, hclosed⟩

theorem exists_nodes_of_build {r : Registry} {filename source : Bytes} {tree : List Markup.Node} {m : Module}
    (h : build r filename source tree = .ok m) :
    ∃ ns st, (nodes { registry := r } [] tree).run {} = .ok (ns, st) ∧ m.body = .sequence ns ∧
      m.macros = st.macros.reverse := by
  have hbuild : Yields (fun _ => True) (fun m : Module => ∃ ns st, (nodes { registry := r } [] tree).run {} = .ok (ns, st) ∧
      m.body = .sequence ns ∧ m.macros = st.macros.reverse) (build r filename source tree) := by
    have hnodes : Yields (fun _ => True) (fun p => (nodes { registry := r } [] tree).run {} = .ok p)
        ((nodes { registry := r } [] tree).run {}) := ⟨fun _ hp => hp, fun _ _ => trivial⟩
    refine hnodes.bind fun p hp => .bind (.forIn fun call _ => ?_) fun _ _ => .ok ⟨p.1, p.2, hp, rfl, rfl⟩
    dsimp only
    split
    · exact .error trivial
    · exact .ok trivial
  exact hbuild.1 m h

end Builder

end PageTemplate
