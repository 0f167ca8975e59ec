import PageTemplate.Proofs.BuiltElements
import PageTemplate.Proofs.LocalBindings
import PageTemplate.Proofs.Render.Handing

/-!
Clauses are evaluated once. The value of a clause is remembered by the number of its expression, in the activation of
the clause. What is rendered inside stays clear of that entry: in the same activation only smaller numbers are
evaluated, a macro gets an activation of its own, and the fills that a body was given belong to earlier ones.
`Spared.handing` says so of everything that may be rendered meanwhile; so the value is still there at the end tag of an
element.
-/

namespace PageTemplate.Render

open Run (Keeps)

variable {frame : Frame} {e : Compiled} {st st' : State} {r : Except Failure Unit}
variable {Allowed : Frame → Node Compiled → Prop} {inner : Node Compiled}

/-- Something may be rendered in the frame while so many activations are open. -/
inductive Frame.Arises : Nat → Frame → Prop where
  /-- A body of a program is entered from outside. -/
  | entered (program bound : Nat) (st : State) : Arises (st.activations.length + 1) (bodyFrame program bound [] st)
  /-- A body of a program is called from a frame. -/
  | called {frame : Frame} {st : State} (program bound : Nat) (fills : List (Bytes × Node Compiled)) (extend : Bool) :
      Arises st.activations.length frame →
      Arises (st.activations.length + 1) (bodyFrame program bound (passedSlots frame fills extend) st)
  | domain {n : Nat} {frame : Frame} (domain : Bytes) : Arises n frame → Arises n { frame with domain }
  /-- What fills a slot of a body is rendered in the frame that it came with. -/
  | filled {n : Nat} {frame : Frame} {f : Bytes × Node Compiled × Frame} :
      Arises n frame → f ∈ frame.slots → Arises n f.2.2

/-- The activation of the frame is one of so many, and its fills belong to earlier ones. -/
inductive Frame.FitsIn : Nat → Frame → Prop where
  | intro {n : Nat} {frame : Frame} : frame.activation < n → (∀ f ∈ frame.slots, FitsIn frame.activation f.2.2) →
      FitsIn n frame

namespace Frame

variable {n : Nat} {frame : Frame}

theorem FitsIn.activation_lt (h : frame.FitsIn n) : frame.activation < n := by
  obtain ⟨hlt, _⟩ := h
  exact hlt

theorem FitsIn.mono {n' : Nat} (hn : n ≤ n') (h : frame.FitsIn n) : frame.FitsIn n' := by
  obtain ⟨hlt, hslots⟩ := h
  exact ⟨Nat.lt_of_lt_of_le hlt hn, hslots⟩

theorem FitsIn.of_mem_slots (h : frame.FitsIn n) {f : Bytes × Node Compiled × Frame} (hf : f ∈ frame.slots) :
    f.2.2.FitsIn n := by
  obtain ⟨hlt, hslots⟩ := h
  exact (hslots f hf).mono (Nat.le_of_lt hlt)

theorem Arises.fitsIn (h : frame.Arises n) : frame.FitsIn n := by
  induction h with
  | entered program bound st => exact ⟨Nat.lt_succ_self _, fun f hf => absurd hf List.not_mem_nil⟩
  | called program bound fills extend _ ih =>
    refine ⟨Nat.lt_succ_self _, fun f hf => ?_⟩
    rcases mem_passedSlots hf with ⟨g, _, rfl⟩ | hf
    · exact ih
    · exact ih.of_mem_slots hf
  | domain domain _ ih =>
    obtain ⟨hlt, hslots⟩ := ih
    exact ⟨hlt, hslots⟩
  | filled _ hf ih => exact ih.of_mem_slots hf

end Frame

/-! ### What is left alone -/

/-- The value that an activation remembers for an expression, by their numbers. -/
def State.remembered? (st : State) (a x : Nat) : Option Value := (st.activations.getD a {}).cache.lookup x

/-- What was before the expression of a number each time it was evaluated in an activation, newest first. -/
def State.evaluations (st : State) (a x : Nat) : List View :=
  st.views.filter fun w => w.frame.activation == a && w.expr.id == x

@[simp] theorem length_modifyActivation (frame : Frame) (f : Activation → Activation) (st : State) :
    (modifyActivation frame f st).activations.length = st.activations.length := by
  simp [modifyActivation]

@[simp] theorem remembered?_setCached (frame : Frame) (id : Nat) (v : Option Value) (st : State) (a x : Nat) :
    (setCached frame id v st).remembered? a x =
      if a = frame.activation ∧ a < st.activations.length ∧ x = id then v else st.remembered? a x := by
  rw [State.remembered?, setCached, State.getD_modifyActivation]
  grind [State.remembered?, lookup_setEntry]

/-- The entry of an expression in an open activation is left alone, and the expression not evaluated there. -/
structure Spares (a x : Nat) (st st' : State) : Prop where
  length_eq : st'.activations.length = st.activations.length
  remembered_eq : st'.remembered? a x = st.remembered? a x
  evaluations_eq : st'.evaluations a x = st.evaluations a x

/-- The entry is left alone if the activation is open. -/
def Spared (a x : Nat) (st st' : State) : Prop := a < st.activations.length → Spares a x st st'

/-- The expression is another one than that of the entry, or it is evaluated in another activation. -/
def StaysClear (a x : Nat) (frame : Frame) (e : Compiled) : Prop := frame.activation = a → e.id ≠ x

/-- What fills the slots of the frame is allowed in the frames that it came with. -/
inductive Frame.Admits (Allowed : Frame → Node Compiled → Prop) : Frame → Prop where
  | intro {frame : Frame} : (∀ f ∈ frame.slots, Admits Allowed f.2.2) →
      (∀ f ∈ frame.slots, f.2.1.Every (Allowed f.2.2)) → Admits Allowed frame

theorem Frame.admits_iff :
    frame.Admits Allowed ↔ ∀ f ∈ frame.slots, f.2.2.Admits Allowed ∧ f.2.1.Every (Allowed f.2.2) := by
  refine ⟨fun h => ?_, fun h => .intro (fun f hf => (h f hf).1) fun f hf => (h f hf).2⟩
  obtain ⟨hframes, hnodes⟩ := h
  exact fun f hf => ⟨hframes f hf, hnodes f hf⟩

theorem Frame.FitsIn.admits {n a : Nat} (h : frame.FitsIn n)
    (ha : frame.activation ≤ a) (hother : ∀ {frame : Frame} {m : Node Compiled}, frame.activation ≠ a → Allowed frame m) :
    frame.Admits Allowed := by
  induction h with
  | @intro n frame _ hslots ih =>
    have hlt : ∀ f ∈ frame.slots, f.2.2.activation < a := fun f hf =>
      Nat.lt_of_lt_of_le (hslots f hf).activation_lt ha
    exact .intro (fun f hf => ih f hf (Nat.le_of_lt (hlt f hf))) fun f hf _ _ => hother (Nat.ne_of_lt (hlt f hf))

theorem remembered?_bodyStart {a : Nat} (ha : a < st.activations.length) (program x : Nat) :
    (bodyStart program st).remembered? a x = st.remembered? a x := by
  simp only [State.remembered?, bodyStart, List.getD_eq_getElem?_getD, List.getElem?_append_left ha]

theorem remembered?_take {a n : Nat} (ha : a < n) (named : Option (Assoc Bytes)) (x : Nat) :
    State.remembered? { st with named, activations := st.activations.take n } a x = st.remembered? a x := by
  simp only [State.remembered?, List.getD_eq_getElem?_getD, List.getElem?_take_of_lt ha]

namespace Spared

variable {a x : Nat}
variable {frame : Frame}

theorem of_eq {st st' : State} (hactivations : st'.activations = st.activations) (hviews : st'.views = st.views) :
    Spared a x st st' := fun _ =>
  ⟨by rw [hactivations], by rw [State.remembered?, hactivations, State.remembered?],
    by rw [State.evaluations, hviews, State.evaluations]⟩

theorem of_modifyActivation (frame : Frame) {f : Activation → Activation}
    (hf : a = frame.activation → ∀ act, (f act).cache.lookup x = act.cache.lookup x) (st : State) :
    Spared a x st (modifyActivation frame f st) := by
  refine fun _ => ⟨length_modifyActivation frame f st, ?_, rfl⟩
  rw [State.remembered?, State.getD_modifyActivation]
  split
  · next h => exact hf h.1 _
  · rfl

theorem switchless : Switchless (Spared a x) (StaysClear a x) where
  refl _ := of_eq rfl rfl
  trans {st₁ st₂ st₃} h h' hopen := by
    have hfirst := h hopen
    have hsecond := h' (hfirst.length_eq ▸ hopen)
    exact ⟨hsecond.length_eq.trans hfirst.length_eq, hsecond.remembered_eq.trans hfirst.remembered_eq,
      hsecond.evaluations_eq.trans hfirst.evaluations_eq⟩
  world _ _ _ := of_eq rfl rfl
  views st {frame e} w he _ := by
    refine ⟨rfl, rfl, List.filter_cons_of_neg ?_⟩
    simpa [StaysClear] using he
  record _ _ _ := of_eq rfl rfl
  out _ _ := of_eq rfl rfl
  named _ _ := of_eq rfl rfl
  noted _ _ := of_eq rfl rfl
  switches frame _ _ := of_modifyActivation frame fun _ _ => rfl
  openings frame _ _ := of_modifyActivation frame fun _ _ => rfl

theorem setCached {e : Compiled} (he : StaysClear a x frame e) (v : Option Value) (st : State) :
    Spared a x st (setCached frame e.id v st) := by
  refine of_modifyActivation frame (fun heq act => ?_) st
  simp [Ne.symm (he heq.symm)]

/-- Rendering leaves the entry alone, as long as nothing in the frame and in those of its fills evaluates the
expression. -/
theorem handing : Handing (Spared a x) (fun st => a < st.activations.length)
    (Frame.Admits fun frame n => ∀ e ∈ n.reads, StaysClear a x frame e)
    (fun frame n => ∀ e ∈ n.reads, StaysClear a x frame e) (StaysClear a x) where
  toTextless := switchless.toTextless
  structural := switchless.toElementary.structural switchless.enclosing fun _ h _ h' => of_eq h h'
  cache _ hn hbody := switchless.toElementary.renderCache (fun _ _ v st he => setCached he v st) _ hn hbody
  vars _ _ := of_eq rfl rfl
  ready h hopen := h hopen hopen
  reads _ hn := hn
  host _ := .modify fun _ => of_eq rfl rfl
  global _ _ _ _ _ _ _ := .modify fun _ => of_eq rfl rfl
  domain _ hframe := by
    rw [Frame.admits_iff] at hframe ⊢
    exact hframe
  allowedDomain _ hn := hn
  slots hframe := Frame.admits_iff.1 hframe
  body bound _ hopen _ hslots :=
    ⟨Frame.admits_iff.2 hslots, fun _ _ _ _ heq => absurd heq (Nat.ne_of_gt hopen)⟩
  within {st st₁} program h hopen := by
    -- The activation that was added is dropped again, and it is not the one of the entry.
    have hbody := h (by simp only [bodyStart, List.length_append, List.length_singleton]; omega)
    obtain ⟨hlength, hremembered, hevaluations⟩ := hbody
    simp only [bodyStart, List.length_append, List.length_singleton] at hlength
    refine ⟨by simp [hlength], ?_, hevaluations⟩
    rw [remembered?_take hopen, hremembered, remembered?_bodyStart hopen]

theorem node {depth : Nat} {n : Node Compiled} {opened : Nat} (hframe : frame.FitsIn opened)
    (hn : n.ReadsBelow Compiled.id x) : Keeps (Spared frame.activation x) (node (toDepth depth) frame n) :=
  handing.node (fun hframe hn => handing.toDepth depth hframe hn)
    (hframe.admits (Nat.le_refl _) fun hne _ _ heq => absurd heq hne) fun m hm e he _ => Nat.ne_of_lt (hn m hm e he)

end Spared

/-! ### Runs of clauses -/

/-- The activation of the frame is open and remembers the value of the expression. -/
structure Remembers (frame : Frame) (e : Compiled) (v : Value) (st : State) : Prop where
  opened : frame.activation < st.activations.length
  remembered : st.remembered? frame.activation e.id = some v

theorem Remembers.of_spared {v : Value} (h : Remembers frame e v st) (hspared : Spared frame.activation e.id st st') :
    Remembers frame e v st' := by
  have hspares := hspared h.opened
  exact ⟨hspares.length_eq ▸ h.opened, hspares.remembered_eq.trans h.remembered⟩

theorem remembers_setCached (hopen : frame.activation < st.activations.length) (e : Compiled) (v : Value) :
    Remembers frame e v (setCached frame e.id (some v) st) := by
  refine ⟨(length_modifyActivation frame _ st).symm ▸ hopen, ?_⟩
  rw [remembered?_setCached, if_pos ⟨rfl, hopen, rfl⟩]

theorem run_evaluate_of_remembers {v : Value} (h : Remembers frame e v st) :
    (evaluate frame e).run st = some (.ok v, { st with events := .recalled e v :: st.events }) := by
  have hlookup : (st.activations.getD frame.activation {}).cache.lookup e.id = some v := h.remembered
  rw [evaluate, run_activation_bind, hlookup]
  rfl

theorem exists_run_evaluateFresh (frame : Frame) (e : Compiled) (st : State) :
    ∃ r s v, (evaluateFresh frame e).run st = some (r, s) ∧ s.activations = st.activations ∧
      s.views = ⟨frame, e, st.vars, st.assigned, st.world⟩ :: st.views ∧ s.events = .evaluated e v :: st.events ∧
      v.toOption.isSome = r.toOption.isSome := by
  rw [run_evaluateFresh]
  cases hv : ((e.evaluator.eval st.vars).run st.world).1 with
  | ok v => exact ⟨_, _, _, rfl, rfl, rfl, rfl, rfl⟩
  | error f =>
    dsimp only
    unfold failAt
    split <;> exact ⟨_, _, _, rfl, rfl, rfl, rfl, rfl⟩

theorem run_renderCache_singleton (frame : Frame) (e : Compiled) (body : Run Unit) (st : State) :
    (renderCache frame [e] body).run st =
      ((evaluateFresh frame e).run st).bind fun p =>
        match p.1 with
        | .ok v =>
          (body.run (setCached frame e.id (some v) p.2)).map fun q =>
            (q.1, setCached frame e.id (p.2.remembered? frame.activation e.id) q.2)
        | .error f => some (.error f, setCached frame e.id none p.2) := by
  rw [renderCache, Run.run_bind, cacheValues, Run.run_bind, Run.run_attempt]
  cases (evaluateFresh frame e).run st with
  | none => rfl
  | some p =>
    obtain ⟨r, s⟩ := p
    cases r with
    | error f => rfl
    | ok v =>
      rw [Option.bind_some, Option.map_some, Option.bind_some]
      exact Run.run_restoring _ body _

theorem run_truth_bool_bind {α : Type} (b : Bool) (f : Bool → Run α) (st : State) :
    (truth (.bool b) >>= f).run st = (f b).run st := by
  rw [run_truth_bind, Heap.resolve, Value.truthy]
  all_goals intros; contradiction

/-- A tag of an element, come to with the value that decides about it. -/
def renderTag (call : Continuation) (frame : Frame) (e : Compiled) (v : Value) (omitted : Bool) (tag : Node Compiled) :
    Run Unit :=
  if tag.isPresent then do
    note (.recalled e v)
    if omitted then return else node call frame tag
  else return

/-- An element of which both tags are written or both are left out. -/
def renderElement (call : Continuation) (frame : Frame) (e : Compiled) (v : Value) (omitted : Bool)
    (start body stop : Node Compiled) : Run Unit := do
  renderTag call frame e v omitted start
  node call frame body
  renderTag call frame e v omitted stop

section Clauses

variable {call : Continuation} {frame : Frame} {e : Compiled} {v : Value} {st : State} (h : Remembers frame e v st)
include h

theorem run_condition_isDefault (yes no : Node Compiled) :
    (node call frame (.condition (.isDefault e) yes no)).run st =
      (node call frame (if v.isDefault then yes else no)).run { st with events := .recalled e v :: st.events } := by
  rw [node, operand, bind_assoc, Run.run_bind, run_evaluate_of_remembers h, Option.bind_some]
  dsimp only
  rw [pure_bind, run_truth_bool_bind]
  split <;> rfl

theorem run_unlessOmitted (tag : Node Compiled) :
    (node call frame (.unlessOmitted e tag)).run st =
      (renderTag call frame e v (st.world.heap.resolve v).truthy tag).run st := by
  unfold Node.unlessOmitted renderTag
  split
  · rw [node, operand, operand, bind_assoc, Run.run_bind, run_evaluate_of_remembers h, Option.bind_some]
    dsimp only
    rw [bind_assoc, run_truth_bind, pure_bind, run_truth_bool_bind, note, Run.run_modify_bind]
    cases (st.world.heap.resolve v).truthy with
    | true => rw [node]; rfl
    | false => rfl
  · rw [node]

end Clauses

theorem Elementary.renderTag {R : State → State → Prop} {E : Frame → Compiled → Prop} (hR : Elementary R E)
    {call : Continuation} {tag : Node Compiled} (htag : Keeps R (node call frame tag)) (e : Compiled) (v : Value)
    (omitted : Bool) : Keeps R (renderTag call frame e v omitted tag) := by
  unfold Render.renderTag
  split
  · refine hR.bind (hR.note rfl) fun _ => ?_
    split
    · exact hR.pure _
    · exact htag
  · exact hR.pure _

section Decisions

variable {depth opened : Nat} {frame : Frame} {e : Compiled} {v : Value} {st : State} (hframe : frame.FitsIn opened)
variable {st' : State} {r : Except Failure Unit}

include hframe

/-- The value decides once about both tags: at the end tag it is still remembered, and counts as it did at the start
tag. -/
theorem run_element_unlessOmitted (h : Remembers frame e v st) (name : Bytes) {start body : Node Compiled}
    (hstart : start.ReadsBelow Compiled.id e.id) (hbody : body.ReadsBelow Compiled.id e.id) (stop : Node Compiled) :
    (node (toDepth depth) frame (.element name (.unlessOmitted e start) body (.unlessOmitted e stop))).run st =
      (renderElement (toDepth depth) frame e v (st.world.heap.resolve v).truthy start body stop).run st := by
  have htables : ∀ n, Keeps TablesKept (node (toDepth depth) frame n) :=
    fun n => TablesKept.lasting.keeps_toDepth (depth + 1) frame n
  rw [node, renderElement, Run.run_bind, run_unlessOmitted h, ← Run.run_bind]
  refine Run.run_bind_congr fun _ s₁ hrun₁ => Run.run_bind_congr fun _ s₂ hrun₂ => ?_
  have hspared := Spared.switchless.trans
    (Spared.switchless.renderTag (Spared.node hframe hstart) e v _ _ _ _ hrun₁) (Spared.node hframe hbody _ _ _ hrun₂)
  have hkept := TablesKept.aloof.trans
    (TablesKept.aloof.renderTag (htables start) e v _ _ _ _ hrun₁) (htables body _ _ _ hrun₂)
  rw [run_unlessOmitted (h.of_spared hspared), Heap.truthy_resolve hkept.table_eq]

theorem spares_of_condition (h : Remembers frame e v st) {kept : Node Compiled} (hkept : kept.ReadsBelow Compiled.id e.id)
    (raw translate : Bool)
    (hrun : (node (toDepth depth) frame (.condition (.isDefault e) kept (.content e raw translate))).run st = some (r, st')) :
    Spares frame.activation e.id st st' := by
  have hR := Spared.switchless (a := frame.activation) (x := e.id)
  have hrecalled : ∀ {st}, Spared frame.activation e.id st { st with events := .recalled e v :: st.events } :=
    hR.noted _ _
  rw [run_condition_isDefault h] at hrun
  refine hR.trans hrecalled ?_ h.opened
  split at hrun
  · exact Spared.node hframe hkept _ _ _ hrun
  · rw [node, renderContent_eq, Run.run_bind, run_evaluate_of_remembers (h.of_spared hrecalled)] at hrun
    exact hR.trans hrecalled (hR.compositional.showContent (U := []) frame raw translate v _ _ _ hrun)

theorem spares_of_element (h : Remembers frame e v st) (name : Bytes) {start body stop : Node Compiled}
    (hstart : start.ReadsBelow Compiled.id e.id) (hbody : body.ReadsBelow Compiled.id e.id)
    (hstop : stop.ReadsBelow Compiled.id e.id)
    (hrun : (node (toDepth depth) frame
      (.element name (.unlessOmitted e start) body (.unlessOmitted e stop))).run st = some (r, st')) :
    Spares frame.activation e.id st st' := by
  have hR := Spared.switchless (a := frame.activation) (x := e.id)
  rw [run_element_unlessOmitted hframe h name hstart hbody] at hrun
  refine hR.bind (hR.renderTag (Spared.node hframe hstart) e v _) (fun _ => ?_) _ _ _ hrun h.opened
  exact hR.bind (Spared.node hframe hbody) fun _ => hR.renderTag (Spared.node hframe hstop) e v _

end Decisions

/-- What a clause starts with: the evaluation of its expression, whose value is then remembered. -/
theorem exists_of_run_cache {body : Run Unit} (hrun : (renderCache frame [e] body).run st = some (r, st')) :
    ∃ r₁ s, (evaluateFresh frame e).run st = some (r₁, s) ∧ s.activations = st.activations ∧
      s.views = ⟨frame, e, st.vars, st.assigned, st.world⟩ :: st.views ∧
      ((∃ f, r₁ = .error f ∧ r = .error f ∧ st' = setCached frame e.id none s) ∨
        ∃ v s', r₁ = .ok v ∧ body.run (setCached frame e.id (some v) s) = some (r, s') ∧
          st' = setCached frame e.id (s.remembered? frame.activation e.id) s') := by
  obtain ⟨r₁, s, _, hfresh, hactivations, hviews, _⟩ := exists_run_evaluateFresh frame e st
  refine ⟨r₁, s, hfresh, hactivations, hviews, ?_⟩
  rw [run_renderCache_singleton, hfresh, Option.bind_some] at hrun
  cases r₁ with
  | error f =>
    cases hrun
    exact .inl ⟨f, rfl, rfl, rfl⟩
  | ok v =>
    obtain ⟨⟨r₂, s'⟩, hbody, hend⟩ := Option.map_eq_some_iff.1 hrun
    cases hend
    exact .inr ⟨v, s', rfl, hbody, rfl⟩

theorem evaluations_of_cache {depth : Nat} (hframe : frame.FitsIn st.activations.length)
    (hclause : (Node.cache [e] inner).IsClause Compiled.id)
    (hrun : (node (toDepth depth) frame (.cache [e] inner)).run st = some (r, st')) :
    st'.evaluations frame.activation e.id =
      ⟨frame, e, st.vars, st.assigned, st.world⟩ :: st.evaluations frame.activation e.id := by
  rw [node] at hrun
  obtain ⟨r₁, s, hfresh, hactivations, hviews, hcases⟩ := exists_of_run_cache hrun
  have hfirst : s.evaluations frame.activation e.id =
      ⟨frame, e, st.vars, st.assigned, st.world⟩ :: st.evaluations frame.activation e.id := by
    rw [State.evaluations, hviews]
    exact List.filter_cons_of_pos (by simp)
  rcases hcases with ⟨f, _, _, rfl⟩ | ⟨v, s', _, hbody, rfl⟩
  · exact hfirst
  · have hremembers := remembers_setCached (hactivations ▸ hframe.activation_lt) e v
    have hspares : Spares frame.activation e.id (setCached frame e.id (some v) s) s' := by
      cases hclause with
      | substitution raw translate hkept => exact spares_of_condition hframe hremembers hkept raw translate hbody
      | omission name hstart hinner hstop => exact spares_of_element hframe hremembers name hstart hinner hstop hbody
    exact hspares.evaluations_eq.trans hfirst

theorem exists_of_run_omission {depth : Nat} {name : Bytes} {start body stop : Node Compiled}
    (hframe : frame.FitsIn st.activations.length)
    (hclause : (Node.omission e name start body stop).IsClause Compiled.id)
    (hrun : (node (toDepth depth) frame (.omission e name start body stop)).run st = some (r, st')) :
    (∃ f s, (evaluateFresh frame e).run st = some (.error f, s) ∧ r = .error f ∧ st' = setCached frame e.id none s) ∨
      ∃ v s s', (evaluateFresh frame e).run st = some (.ok v, s) ∧
        (renderElement (toDepth depth) frame e v (s.world.heap.resolve v).truthy start body stop).run
          (setCached frame e.id (some v) s) = some (r, s') ∧
        st' = setCached frame e.id (s.remembered? frame.activation e.id) s' := by
  obtain ⟨hstart, hbody, _⟩ := Node.isClause_omission hclause
  rw [Node.omission, node] at hrun
  obtain ⟨r₁, s, hfresh, hactivations, _, hcases⟩ := exists_of_run_cache hrun
  rcases hcases with ⟨f, rfl, hr, hst'⟩ | ⟨v, s', rfl, hinner, hst'⟩
  · exact .inl ⟨f, s, hfresh, hr, hst'⟩
  · have hremembers := remembers_setCached (hactivations ▸ hframe.activation_lt) e v
    rw [run_element_unlessOmitted hframe hremembers name hstart hbody] at hinner
    exact .inr ⟨v, s, s', hfresh, hinner, hst'⟩

/-- Clauses are evaluated once. The clauses of an element that calls no macro become nodes that remember a value, that of
an omitted tag only if the element has tags. They are nodes of the program, unless the element stands in a call and not
in what fills a slot there, and nothing else in a compiled template remembers anything. Each time such a node is
rendered, whatever stands inside it, its expression is evaluated exactly once in its activation, and before anything
else. If the value decides about the tags of an element, it decides once: the start tag is rendered if and only if the
end tag is, unless the element fails in between. -/
theorem clauses_evaluated_once {r : Expression.Registry} {filename source : Bytes} {settings : Nat} {p : Program}
    (h : compileTemplate r filename source settings = .ok p) :
    (∀ {head stop ds written children n st st'},
      (Builder.element r head stop ds written children).run st = .ok (n, st') → Builder.HasClauses head ds n) ∧
    (∃ tree m bs st, Markup.parse source filename = .ok tree ∧ Builder.build r filename source tree = .ok m ∧
      (Builder.builtNodes { registry := r } [] tree).run {} = .ok (bs, st) ∧
      ∀ {q b head}, (Builder.Built.template bs).Stays q b → b.head? = some head → b.isCall = false →
        Builder.HasClauses head b.ds b.content ∧ ∀ n ∈ b.content.all, n.map (m.compiled r) ∈ p.main.all) ∧
    ∀ {body inner exprs}, IsBodyOf p body → Node.cache exprs inner ∈ body.all → ∃ e, exprs = [e] ∧
      (Node.cache [e] inner).IsClause Compiled.id ∧
      ∀ {depth frame st result st'}, Frame.Arises st.activations.length frame →
        (node (toDepth depth) frame (.cache [e] inner)).run st = some (result, st') →
        st'.evaluations frame.activation e.id =
          ⟨frame, e, st.vars, st.assigned, st.world⟩ :: st.evaluations frame.activation e.id ∧
        ∀ {name start content stop}, Node.cache [e] inner = .omission e name start content stop →
          (∃ f s, (evaluateFresh frame e).run st = some (.error f, s) ∧ result = .error f ∧ st'.out = s.out) ∨
          ∃ v s s', (evaluateFresh frame e).run st = some (.ok v, s) ∧
            (renderElement (toDepth depth) frame e v (s.world.heap.resolve v).truthy start content stop).run
              (setCached frame e.id (some v) s) = some (result, s') ∧ st'.out = s'.out := by
  refine ⟨Builder.hasClauses_of_element, Builder.exists_clauses_of_compileTemplate h,
    fun {body inner exprs} hbody hn => ?_⟩
  obtain ⟨k, hmain, hmacros⟩ := exists_orderly_of_compileTemplate h
  have horderly : body.Orderly Compiled.id k := by
    rcases hbody with rfl | ⟨name, hname⟩
    · exact hmain
    · obtain ⟨before, after, hlookup, _⟩ := List.lookup_eq_some_iff.1 hname
      exact hmacros (name, body) (by simp [hlookup])
  have hclause := (horderly _ hn).clause rfl
  obtain ⟨e, rfl⟩ : ∃ e, exprs = [e] := by
    cases hclause <;> exact ⟨_, rfl⟩
  refine ⟨e, rfl, hclause, fun {depth frame st result st'} hframe hrun =>
    ⟨?_, fun {name start content stop} homission => ?_⟩⟩
  · exact evaluations_of_cache hframe.fitsIn hclause hrun
  · rw [homission] at hclause hrun
    rcases exists_of_run_omission hframe.fitsIn hclause hrun with ⟨f, s, hfresh, hr, rfl⟩ | ⟨v, s, s', hfresh, hinner, rfl⟩
    · exact .inl ⟨f, s, hfresh, hr, rfl⟩
    · exact .inr ⟨v, s, s', hfresh, hinner, rfl⟩

/-- What a node remembers, and the body that it does so for. -/
def cached? : Node Compiled → Option (List Compiled × Node Compiled)
  | .cache exprs inner => some (exprs, inner)
  | _ => none

theorem mem_all_of_cached? {n : Node Compiled} {exprs : List Compiled}
    (h : n.all.findSome? cached? = some (exprs, inner)) : Node.cache exprs inner ∈ n.all := by
  obtain ⟨m, hm, hcached⟩ := List.exists_of_findSome?_eq_some h
  cases m with
  | cache _ _ =>
    cases hcached
    exact hm
  | _ => cases hcached

/-- The tags of an element are left out around another element with a clause of its own. -/
theorem clauses_evaluated_once_around_content :
    let r := Expression.Registry.initial (utf8 "expr") []
    let source := utf8 "<p tal:omit-tag=\"1\"><b tal:content=\"2\">x</b></p>"
    let st : State := { world := {} }
    let frame := bodyFrame 0 0 [] st
    ∃ p, compileTemplate r [] source 0 = .ok p ∧
      (∃ tree m bs s b head, Markup.parse source [] = .ok tree ∧ Builder.build r [] source tree = .ok m ∧
        (Builder.builtNodes { registry := r } [] tree).run {} = .ok (bs, s) ∧
        (Builder.Built.template bs).Stays [0, 0] b ∧ b.ds.has .content = true ∧ b.isCall = false ∧
        Builder.HasClauses head b.ds b.content ∧ ∀ n ∈ b.content.all, n.map (m.compiled r) ∈ p.main.all) ∧
      ∃ e inner st', Node.cache [e] inner ∈ p.main.all ∧
        (node (toDepth 0) frame (.cache [e] inner)).run (bodyStart 0 st) = some (.ok (), st') ∧
        st'.out.text = utf8 "<b>2</b>" ∧ (st'.evaluations frame.activation e.id).length = 1 := by
  intro r source st frame
  have hcomputed : ((compileTemplate r [] source 0).toOption.bind fun p => (p.main.all.findSome? cached?).bind fun c =>
      ((node (toDepth 0) frame (.cache c.1 c.2)).run (bodyStart 0 st)).map fun q =>
        (q.1.toOption.isSome, q.2.out.text)) = some (true, utf8 "<b>2</b>") := by
    decide +kernel
  have hbuilt : ((Markup.parse source []).toOption.bind fun tree =>
      ((Builder.builtNodes { registry := r } [] tree).run {}).toOption.bind fun q => q.1[0]?.bind fun c =>
        c.children[0]?.map fun b => (c.isCall, b.isCall, b.head?.isSome, b.ds.has .content)) =
      some (false, false, true, true) := by
    decide +kernel
  obtain ⟨p, hp, hcomputed⟩ := Option.bind_eq_some_iff.1 hcomputed
  obtain ⟨⟨exprs, inner⟩, hcached, hcomputed⟩ := Option.bind_eq_some_iff.1 hcomputed
  obtain ⟨⟨result, st'⟩, hrun, hresult⟩ := Option.map_eq_some_iff.1 hcomputed
  obtain ⟨hok, htext⟩ := Prod.mk.inj hresult
  have hcompile := eq_ok_of_toOption hp
  have hn := mem_all_of_cached? hcached
  have hframe : Frame.Arises (bodyStart 0 st).activations.length frame := .entered 0 0 st
  obtain ⟨_, ⟨tree, m, bs, s, hparse, hbuild, hbs, hclauses⟩, honce⟩ := clauses_evaluated_once hcompile
  obtain ⟨e, rfl, _, honce⟩ := honce (.inl rfl) hn
  obtain ⟨hevaluations, _⟩ := honce hframe hrun
  rw [hparse, Except.toOption, Option.bind_some, hbs, Except.toOption, Option.bind_some] at hbuilt
  obtain ⟨c, hc, hbuilt⟩ := Option.bind_eq_some_iff.1 hbuilt
  obtain ⟨b, hb, heq⟩ := Option.map_eq_some_iff.1 hbuilt
  obtain ⟨hccall, heq⟩ := Prod.mk.inj heq
  obtain ⟨hcall, heq⟩ := Prod.mk.inj heq
  obtain ⟨hhead, hcontent⟩ := Prod.mk.inj heq
  obtain ⟨head, hhead⟩ := Option.isSome_iff_exists.1 hhead
  have hstays : (Builder.Built.template bs).Stays [0, 0] b := .child rfl hc (.child hccall hb (.here b))
  obtain ⟨hhas, hmem⟩ := hclauses hstays hhead hcall
  cases result with
  | error f => cases hok
  | ok _ =>
    exact ⟨p, hcompile, ⟨tree, m, bs, s, b, head, hparse, hbuild, hbs, hstays, hcontent, hcall, hhas, hmem⟩,
      e, inner, st', hn, hrun, htext, by rw [hevaluations]; rfl⟩

/-- Where a value takes the place of a whole element, nothing is evaluated to decide about its tags. -/
theorem omission_not_evaluated :
    let r := Expression.Registry.initial (utf8 "expr") []
    let source := utf8 "<p tal:replace=\"1\" tal:omit-tag=\"nosuch\">x</p>"
    let st : State := { world := {} }
    let frame := bodyFrame 0 0 [] st
    ∃ p st', compileTemplate r [] source 0 = .ok p ∧
      utf8 "nosuch" ∈ (p.main.all.flatMap Node.reads).map (·.site.expression) ∧
      (node (toDepth 0) frame p.main).run (bodyStart 0 st) = some (.ok (), st') ∧
      st'.out.text = utf8 "1" ∧ st'.views.map (·.expr.site.expression) = [utf8 "1"] := by
  intro r source st frame
  have hcomputed : ((compileTemplate r [] source 0).toOption.bind fun p =>
      ((node (toDepth 0) frame p.main).run (bodyStart 0 st)).map fun q =>
        ((p.main.all.flatMap Node.reads).map (·.site.expression), q.1.toOption.isSome, q.2.out.text,
          q.2.views.map (·.expr.site.expression))) =
      some ([utf8 "1", utf8 "1", utf8 "nosuch", utf8 "nosuch", utf8 "nosuch", utf8 "1"], true, utf8 "1", [utf8 "1"]) := by
    decide +kernel
  obtain ⟨p, hp, hcomputed⟩ := Option.bind_eq_some_iff.1 hcomputed
  obtain ⟨⟨result, st'⟩, hrun, hresult⟩ := Option.map_eq_some_iff.1 hcomputed
  obtain ⟨hreads, hresult⟩ := Prod.mk.inj hresult
  obtain ⟨hok, hresult⟩ := Prod.mk.inj hresult
  obtain ⟨htext, hviews⟩ := Prod.mk.inj hresult
  cases result with
  | error f => cases hok
  | ok _ => exact ⟨p, st', eq_ok_of_toOption hp, by rw [hreads]; decide, hrun, htext, hviews⟩

end PageTemplate.Render
