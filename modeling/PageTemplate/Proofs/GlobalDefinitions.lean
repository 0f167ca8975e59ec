import PageTemplate.Proofs.Assoc
import PageTemplate.Proofs.Render.Effect

/-!
Definitions for the whole render. They set the variable where they stand, and every binding around them puts it back. So
a definition lasts if it is not made in the scope of a local binding of the same variable. Two relations between states
say so: inside such a scope a variable is left alone and only expressions of the scope are evaluated, and outside it has
the value of the last definition. The main statement is about what each expression had before it when it was evaluated.
-/

namespace PageTemplate

namespace Node

/-- The expressions that are evaluated for a node and the nodes below it. -/
def exprs (n : Node Compiled) : List Compiled := n.all.flatMap reads

def IsCall : Node Compiled → Prop
  | .useInternal _ _ _ | .useExternal _ _ _ => True
  | _ => False

def SetsGlobal (x : Bytes) : Node Compiled → Prop
  | .define assignments _ => ∃ a ∈ assignments, a.isGlobal = true ∧ x ∈ a.names
  | _ => False

/-- What is left of assignments after the first one that binds a variable locally. -/
def afterBinding? (x : Bytes) : List (Assignment Compiled) → Option (List (Assignment Compiled))
  | [] => none
  | a :: as => if a.isGlobal = false ∧ x ∈ a.names then some as else afterBinding? x as

/-- The part of a node that is rendered with a variable bound locally by the node. -/
def scope? (x : Bytes) : Node Compiled → Option (Node Compiled)
  | .loop names _ body _ => if x ∈ names then some body else none
  | .define assignments body => (afterBinding? x assignments).map fun as => .define as body
  | .onError _ fallback => if x = utf8 "error" then some fallback else none
  | _ => none

/-- What stands in the scope of a binding is below its node, but for the rest of its assignments. -/
theorem mem_all_of_mem_scope {x : Bytes} {n s k : Node Compiled} (hs : n.scope? x = some s) (hk : k ∈ s.all) :
    k ∈ n.all ∨ ∃ as body, k = .define as body := by
  cases n with
  | loop names e body whitespace =>
    obtain ⟨_, heq⟩ := Option.ite_none_right_eq_some.1 hs
    cases heq
    exact .inl (List.mem_cons_of_mem _ hk)
  | define assignments body =>
    obtain ⟨as, _, rfl⟩ := Option.map_eq_some_iff.1 hs
    rcases List.mem_cons.1 hk with rfl | hk
    · exact .inr ⟨as, body, rfl⟩
    · exact .inl (List.mem_cons_of_mem _ hk)
  | onError body fallback =>
    obtain ⟨_, heq⟩ := Option.ite_none_right_eq_some.1 hs
    cases heq
    exact .inl (List.mem_cons_of_mem _ (List.mem_append_right _ hk))
  | _ => cases hs

/-- An expression stands in the scope of a local binding of a variable. -/
def Shadows (n : Node Compiled) (x : Bytes) (e : Compiled) : Prop :=
  ∃ m ∈ n.all, ∃ s, m.scope? x = some s ∧ e ∈ s.exprs

end Node

namespace Render

open Run (Keeps)

/-- The variable is left alone, is not defined for the whole render, and only given expressions are evaluated. -/
structure Untouched (x : Bytes) (B : Compiled → Prop) (st st' : State) : Prop where
  assigned : ∃ ds : Assoc Value, st'.assigned = ds ++ st.assigned ∧ ds.get? x = none
  views : ∃ vs, st'.views = vs ++ st.views ∧ ∀ w ∈ vs, B w.expr
  vars_eq : st'.vars.get? x = st.vars.get? x

namespace Untouched

variable {x : Bytes} {B : Compiled → Prop} {st st' : State}

theorem of_eq (hassigned : st'.assigned = st.assigned) (hviews : st'.views = st.views)
    (hvars : st'.vars.get? x = st.vars.get? x) : Untouched x B st st' :=
  ⟨⟨[], hassigned, rfl⟩, ⟨[], hviews, by simp⟩, hvars⟩

theorem trans {st₁ st₂ st₃ : State} (h : Untouched x B st₁ st₂) (h' : Untouched x B st₂ st₃) :
    Untouched x B st₁ st₃ := by
  obtain ⟨⟨ds, hds, hnone⟩, ⟨vs, hvs, hall⟩, hvars⟩ := h
  obtain ⟨⟨ds', hds', hnone'⟩, ⟨vs', hvs', hall'⟩, hvars'⟩ := h'
  refine ⟨⟨ds' ++ ds, ?_, ?_⟩, ⟨vs' ++ vs, ?_, ?_⟩, hvars'.trans hvars⟩
  · rw [hds', hds, List.append_assoc]
  · rw [Assoc.get?_append, hnone', hnone]
    rfl
  · rw [hvs', hvs, List.append_assoc]
  · exact List.forall_mem_append.2 ⟨hall', hall⟩

theorem aloof : Aloof (Untouched x B) (fun _ => B) where
  trans := trans
  world _ _ _ := of_eq rfl rfl rfl
  views st frame e w he := ⟨⟨[], rfl, rfl⟩, ⟨[⟨frame, e, st.vars, st.assigned, w⟩], rfl, by simpa using he⟩, rfl⟩
  apart _ _ _ _ _ := of_eq rfl rfl rfl
  failures _ _ := of_eq rfl rfl rfl

theorem binding (name : Bytes) (v : Value) {body : Run Unit} (hbody : Keeps (Untouched x B) body) :
    Keeps (Untouched x B) (binding name v body) := by
  intro st r st' h
  rw [run_binding, Option.map_eq_some_iff] at h
  obtain ⟨⟨r₁, st₁⟩, hrun, hend⟩ := h
  cases hend
  have hkept := hbody _ _ _ hrun
  refine ⟨hkept.assigned, hkept.views, ?_⟩
  have hvars := hkept.vars_eq
  simp only [Assoc.get?_insert] at hvars
  simp only [Assoc.get?_set?]
  split
  · next heq => rw [heq]
  · next hne => rw [hvars, if_neg hne]

theorem isScoped : Scoped (Untouched x B) (fun _ => B) := ⟨aloof.toCompatible, binding⟩

theorem loopTable (hx : x ≠ Expression.loopsName) : Keeps (Untouched x B) loopTable := by
  refine .get_bind fun st r st' h => ?_
  split at h
  · cases h
    exact aloof.refl st
  · cases h
    refine of_eq rfl rfl ?_
    simp only [Assoc.get?_insert, if_neg hx]

theorem setGlobal {name : Bytes} (hname : name ≠ x) (v : Value) :
    Keeps (Untouched x B) (setGlobal name v) := by
  refine .modify fun st => ⟨⟨[(name, v)], rfl, ?_⟩, ⟨[], rfl, by simp⟩, ?_⟩
  · simp [Ne.symm hname]
  · simp only [Assoc.get?_insert, if_neg (Ne.symm hname)]

/-- A node that may stand in the scope of a local binding. -/
structure Inside (x : Bytes) (B : Compiled → Prop) (n : Node Compiled) : Prop where
  call : ¬ n.IsCall
  global : ¬ n.SetsGlobal x
  reads : ∀ e ∈ n.reads, B e

theorem guarded (call : Continuation) (hx : x ≠ Expression.loopsName) :
    Guarded call (fun frame => frame.slots = []) (keeping (Untouched x B)) (Inside x B) (fun _ => B) := by
  have hloop : ∀ (frame : Frame) (names : List Bytes) {e : Compiled} (whitespace : Bytes) {body : Run Unit},
      B e → Keeps (Untouched x B) body → Keeps (Untouched x B) (renderLoop frame names e whitespace body) :=
    fun frame names _ whitespace _ he hbody =>
      isScoped.renderLoop hbody (fun _ _ => of_eq rfl rfl rfl) (loopTable hx) frame names he whitespace
  have hcaching := isScoped.caching hloop
  refine hcaching.guarded (fun _ _ hslots => hslots) (fun frame name fill hslots hfill => ?_) (fun _ _ hn _ => hn.reads) ?_
    (fun _ _ frame hn _ hbody => hcaching.cache frame hn.reads hbody) ?_ ?_
  · rw [hslots] at hfill
    cases hfill
  · intro assignments body hn a ha hisGlobal name hname v U
    refine setGlobal ?_ v
    rintro rfl
    exact hn.global ⟨a, ha, hisGlobal, hname⟩
  · exact fun _ _ _ hn => absurd trivial hn.call
  · exact fun _ _ _ hn => absurd trivial hn.call

end Untouched

/-! ### Outside of such scopes -/

/-- The variable has the value of the last definition since, if there was one. -/
def LastDefined (x : Bytes) (st : State) (vars : Vars) (assigned : Assoc Value) : Prop :=
  ∃ ds : Assoc Value, assigned = ds ++ st.assigned ∧ vars.get? x = (ds.get? x).or (st.vars.get? x)

/-- The variable has the value of the last definition, now and whenever any but the given expressions was evaluated. -/
structure Persists (x : Bytes) (B : Compiled → Prop) (st st' : State) : Prop where
  vars : LastDefined x st st'.vars st'.assigned
  views : ∃ vs, st'.views = vs ++ st.views ∧ ∀ w ∈ vs, B w.expr ∨ LastDefined x st w.vars w.assigned

theorem LastDefined.trans {x : Bytes} {st st₁ : State} {vars : Vars} {assigned : Assoc Value}
    (h : LastDefined x st st₁.vars st₁.assigned) (h' : LastDefined x st₁ vars assigned) :
    LastDefined x st vars assigned := by
  obtain ⟨ds, hds, hvars⟩ := h
  obtain ⟨ds', hds', hvars'⟩ := h'
  refine ⟨ds' ++ ds, ?_, ?_⟩
  · rw [hds', hds, List.append_assoc]
  · simp [hvars', hvars, Option.or_assoc]

namespace Persists

variable {x : Bytes} {B : Compiled → Prop} {st st' : State}

theorem of_eq (hassigned : st'.assigned = st.assigned) (hviews : st'.views = st.views)
    (hvars : st'.vars.get? x = st.vars.get? x) : Persists x B st st' :=
  ⟨⟨[], hassigned, hvars⟩, ⟨[], hviews, by simp⟩⟩

theorem trans {st₁ st₂ st₃ : State} (h : Persists x B st₁ st₂) (h' : Persists x B st₂ st₃) :
    Persists x B st₁ st₃ := by
  obtain ⟨hvars, vs, hvs, hall⟩ := h
  obtain ⟨hvars', vs', hvs', hall'⟩ := h'
  refine ⟨hvars.trans hvars', vs' ++ vs, ?_, ?_⟩
  · rw [hvs', hvs, List.append_assoc]
  · refine List.forall_mem_append.2 ⟨fun w hw => ?_, hall⟩
    exact (hall' w hw).imp_right hvars.trans

theorem of_untouched (h : Untouched x B st st') : Persists x B st st' := by
  obtain ⟨⟨ds, hds, hnone⟩, ⟨vs, hvs, hall⟩, hvars⟩ := h
  refine ⟨⟨ds, hds, ?_⟩, vs, hvs, fun w hw => .inl (hall w hw)⟩
  rw [hvars, hnone, Option.none_or]

theorem keeps_of_untouched {α : Type} {act : Run α} (h : Keeps (Untouched x B) act) : Keeps (Persists x B) act :=
  fun _ _ _ hrun => of_untouched (h _ _ _ hrun)

theorem aloof : Aloof (Persists x B) where
  trans := trans
  world _ _ _ := of_eq rfl rfl rfl
  views st frame e w _ := ⟨⟨[], rfl, rfl⟩, [⟨frame, e, st.vars, st.assigned, w⟩], rfl, by simpa using .inr ⟨[], rfl, rfl⟩⟩
  apart _ _ _ _ _ := of_eq rfl rfl rfl
  failures _ _ := of_eq rfl rfl rfl

theorem binding {name : Bytes} (hname : name ≠ x) (v : Value) {body : Run Unit}
    (hbody : Keeps (Persists x B) body) : Keeps (Persists x B) (binding name v body) := by
  intro st r st' h
  rw [run_binding, Option.map_eq_some_iff] at h
  obtain ⟨⟨r₁, st₁⟩, hrun, hend⟩ := h
  cases hend
  have hstart : ∀ vars assigned, LastDefined x { st with vars := st.vars.insert name v } vars assigned →
      LastDefined x st vars assigned := by
    rintro vars assigned ⟨ds, hds, hvars⟩
    rw [Assoc.get?_insert, if_neg (Ne.symm hname)] at hvars
    exact ⟨ds, hds, hvars⟩
  obtain ⟨hvars, vs, hvs, hall⟩ := hbody _ _ _ hrun
  obtain ⟨ds, hds, hvars⟩ := hstart _ _ hvars
  refine ⟨⟨ds, hds, ?_⟩, vs, hvs, fun w hw => (hall w hw).imp_right (hstart _ _)⟩
  simp [Ne.symm hname, hvars]

theorem always_bindingAll {bindings : List (Bytes × Value)} (hnames : ∀ b ∈ bindings, b.1 ≠ x) {body : Run Unit}
    (hbody : Always (keeping (Persists x B)) body) : Always (keeping (Persists x B)) (bindingAll bindings body) :=
  Render.always_bindingAll bindings (fun b hb _ hbody _ => binding (hnames b hb) b.2 (hbody [])) hbody

theorem loopTable (hx : x ≠ Expression.loopsName) : Keeps (Persists x B) loopTable :=
  keeps_of_untouched (Untouched.loopTable hx)

theorem setGlobal (name : Bytes) (v : Value) : Keeps (Persists x B) (setGlobal name v) := by
  refine .modify fun st => ⟨⟨[(name, v)], rfl, ?_⟩, [], rfl, by simp⟩
  rw [Assoc.get?_insert, Assoc.get?_cons, Assoc.get?_nil]
  split
  · rfl
  · rw [Option.none_or]

/-- A local binding of the variable has nothing in its scope that defines the variable for the whole render. -/
structure Outside (x : Bytes) (B : Compiled → Prop) (n : Node Compiled) : Prop where
  call : ¬ n.IsCall
  scope : ∀ s, n.scope? x = some s → ∀ m ∈ s.all, Untouched.Inside x B m

section Nodes

variable (call : Continuation) (hx : x ≠ Expression.loopsName) {frame : Frame} (hslots : frame.slots = [])
include hx hslots

theorem untouched_scope {s : Node Compiled} (h : ∀ m ∈ s.all, Untouched.Inside x B m) :
    Always (keeping (Untouched x B)) (node call frame s) :=
  (Untouched.guarded call hx).node s frame h hslots

theorem renderLoop {names : List Bytes} {e : Compiled} {body : Node Compiled} {whitespace : Bytes}
    (hnode : Outside x B (.loop names e body whitespace)) (hbody : Always (keeping (Persists x B)) (node call frame body)) :
    Always (keeping (Persists x B)) (renderLoop frame names e whitespace (node call frame body)) := by
  have hpass : ∀ values, Always (keeping (Persists x B)) (bindingAll (names.zip values) (node call frame body)) := by
    intro values
    by_cases hmem : x ∈ names
    · have hscope := untouched_scope call hx hslots (hnode.scope body (if_pos hmem))
      exact fun _ => keeps_of_untouched (Untouched.isScoped.always_pass (hscope []) names values [])
    · refine always_bindingAll (fun b hb => ?_) hbody
      rintro rfl
      exact hmem (List.of_mem_zip hb).1
  exact (aloof.looping (fun _ _ => of_eq rfl rfl rfl) (loopTable hx)).renderLoop frame trivial whitespace hpass

theorem renderDefine {assignments : List (Assignment Compiled)} {body : Node Compiled}
    (hscope : ∀ s, (Node.define assignments body).scope? x = some s → ∀ m ∈ s.all, Untouched.Inside x B m)
    (hbody : Always (keeping (Persists x B)) (node call frame body)) :
    Always (keeping (Persists x B)) (renderDefine frame (node call frame body) assignments) := by
  induction assignments with
  | nil => exact hbody
  | cons a as ih =>
    by_cases hbinds : a.isGlobal = false ∧ x ∈ a.names
    · -- The rest of the assignments and the body are the scope of the binding.
      have hinner : Always (keeping (Untouched x B)) (node call frame (.define as body)) :=
        untouched_scope call hx hslots (hscope _ (by simp [Node.scope?, Node.afterBinding?, hbinds]))
      refine aloof.compositional.renderDefine_cons trivial (fun _ _ _ v _ => setGlobal _ v)
        (fun hisGlobal => ?_) fun _ values _ => ?_
      · rw [hbinds.1] at hisGlobal
        cases hisGlobal
      · exact keeps_of_untouched (Untouched.isScoped.always_pass (hinner []) a.names values [])
    · have hrest := ih fun s hs => hscope s (by simpa [Node.scope?, Node.afterBinding?, hbinds] using hs)
      refine aloof.compositional.renderDefine_cons trivial (fun _ _ _ v _ => setGlobal _ v)
        (fun _ => hrest) fun hlocal values => always_bindingAll (fun b hb => ?_) hrest
      rintro rfl
      exact hbinds ⟨hlocal, (List.of_mem_zip hb).1⟩

theorem renderOnError {body fallback : Node Compiled} (hnode : Outside x B (.onError body fallback))
    (hbody : Always (keeping (Persists x B)) (node call frame body))
    (hfallback : Always (keeping (Persists x B)) (node call frame fallback)) :
    Always (keeping (Persists x B)) (renderOnError (node call frame body) (node call frame fallback)) := by
  intro U st r st' h
  rw [run_renderOnError, Option.bind_eq_some_iff] at h
  obtain ⟨⟨rb, sb⟩, hrun, hrest⟩ := h
  have hkept := hbody [] _ _ _ hrun
  cases rb with
  | ok u =>
    cases hrest
    exact hkept
  | error f =>
    refine hkept.trans ((aloof.handlerStart st sb).trans ?_)
    by_cases herror : x = utf8 "error"
    · have hscope := untouched_scope call hx hslots (hnode.scope fallback (if_pos herror))
      exact of_untouched (Untouched.binding _ _ (hscope []) _ _ _ hrest)
    · exact binding (Ne.symm herror) _ (hfallback []) _ _ _ hrest

omit hslots in
theorem guarded : Guarded call (fun frame => frame.slots = []) (keeping (Persists x B)) (Outside x B) where
  toEnclosing := aloof.enclosing
  cache _ _ hbody := aloof.always_cache _ (fun _ _ => trivial) hbody
  domain _ hslots := hslots
  fill hslots hfill := by
    rw [hslots] at hfill
    cases hfill
  reads _ _ _ _ := trivial
  loop hnode hslots hbody := renderLoop call hx hslots hnode hbody
  define hnode hslots hbody := renderDefine call hx hslots hnode.scope hbody
  onError hnode hslots hbody hfallback := renderOnError call hx hslots hnode hbody hfallback
  internal hnode := absurd trivial hnode.call
  external hnode := absurd trivial hnode.call

end Nodes

end Persists

/-- Without macro calls, and if no scope of a local binding of a variable has a definition of it for the whole render,
every expression outside of such scopes finds the variable with the value last defined for the whole render, or else
with the value it had before, and so does what is rendered next. -/
theorem global_definitions_persist (depth : Nat) (frame : Frame) (hslots : frame.slots = []) (n : Node Compiled)
    (x : Bytes) (hx : x ≠ Expression.loopsName) (hcalls : ∀ m ∈ n.all, ¬ m.IsCall)
    (hscopes : ∀ m ∈ n.all, ∀ s, m.scope? x = some s → ∀ k ∈ s.all, ¬ k.SetsGlobal x)
    (st st' : State) (r : Except Failure Unit) (hrun : (node (toDepth depth) frame n).run st = some (r, st')) :
    LastDefined x st st'.vars st'.assigned ∧
      ∃ vs, st'.views = vs ++ st.views ∧
        ∀ w ∈ vs, ¬ n.Shadows x w.expr → LastDefined x st w.vars w.assigned := by
  have houtside : ∀ m ∈ n.all, Persists.Outside x (n.Shadows x) m := by
    intro m hm
    refine ⟨hcalls m hm, fun s hs k hk => ⟨?_, hscopes m hm s hs k hk, fun e he => ?_⟩⟩
    · rcases Node.mem_all_of_mem_scope hs hk with hk | ⟨as, body, rfl⟩
      · exact hcalls k (Node.all_subset_of_mem hm hk)
      · exact id
    · exact ⟨m, hm, s, hs, List.mem_flatMap.2 ⟨k, hk, he⟩⟩
  obtain ⟨hvars, vs, hvs, hall⟩ := (Persists.guarded _ hx).node n frame houtside hslots [] _ _ _ hrun
  refine ⟨hvars, vs, hvs, fun w hw hshadows => ?_⟩
  exact (hall w hw).resolve_left hshadows

theorem global_definitions_persist_after_loop :
    let x := utf8 "x"
    let one : Compiled := ⟨0, .constant (.ofInt 1), default⟩
    let items : Compiled := ⟨1, .constant (.list [.ofInt 2, .ofInt 3]), default⟩
    let item : Compiled := ⟨2, .path (utf8 "y") [], default⟩
    let shown : Compiled := ⟨3, .path x [], default⟩
    let n : Node Compiled := .sequence
      [.define [{ names := [x], expr := one }] (.content shown false false),
        .loop [utf8 "y"] items (.define [{ names := [x], expr := item, isGlobal := true }] .omitted) [],
        .content shown false false]
    let st : State := { world := {}, vars := [(x, .nil)] }
    (∀ m ∈ n.all, ∀ s, m.scope? x = some s → ∀ k ∈ s.all, ¬ k.SetsGlobal x) ∧
      ∃ st', (node (toDepth 0) default n).run st = some (.ok (), st') ∧ LastDefined x st st'.vars st'.assigned ∧
        st'.out.text = utf8 "13" := by
  intro x one items item shown n st
  have hcalls : ∀ m ∈ n.all, ¬ m.IsCall := by
    simp [n, Node.all, Node.allOf, Node.IsCall]
  have hscopes : ∀ m ∈ n.all, ∀ s, m.scope? x = some s → ∀ k ∈ s.all, ¬ k.SetsGlobal x := by
    have hxy : x ≠ utf8 "y" := by decide
    simp [n, Node.all, Node.allOf, Node.scope?, Node.afterBinding?, Node.SetsGlobal, hxy]
  obtain ⟨st', hrun, htext⟩ := Run.exists_ok_of_any (node (toDepth 0) default n) st
    (·.out.text = utf8 "13") (by decide +kernel)
  have hpersists := global_definitions_persist 0 default rfl n x (by decide) hcalls hscopes st st' (.ok ()) hrun
  exact ⟨hscopes, st', hrun, hpersists.1, of_decide_eq_true htext⟩

/-- A definition for the whole render in the scope of a local binding of the variable is lost with the binding: the
variable is unbound afterwards, and the store has its value. -/
theorem definition_in_scope_lost :
    let x := utf8 "x"
    let one : Compiled := ⟨0, .constant (.ofInt 1), default⟩
    let two : Compiled := ⟨1, .constant (.ofInt 2), default⟩
    let n : Node Compiled := .define [{ names := [x], expr := one }]
      (.define [{ names := [x], expr := two, isGlobal := true }] .omitted)
    ((node (toDepth 0) default n).run { world := {} }).map
        (fun p => (p.1.toOption.isSome, p.2.vars.contains x, p.2.remote.contains x)) =
      some (true, false, true) := by
  decide +kernel

end Render

end PageTemplate
