import Mathlib.Logic.Relation
import PageTemplate.Expression.Evaluate

/-!
What expressions can see of the objects of the world and do to them. All changes are made by the functions and methods
that an expression calls, by loading and compiling templates, by log lines and by the note taken of a comparison:
`World.Step` lists them. A `World.Bisimulation` relates worlds that look the same and go on to do so;
`Evaluator.respects_eval` says that an expression comes to the same in related worlds. With the worlds that can be
reached from one, it gives `Evaluator.evolves_eval`: evaluating an expression is a sequence of steps, and what every
step keeps is kept by every evaluation.
-/

namespace PageTemplate

/-- One change of the objects of the world. -/
inductive World.Step : World → World → Prop where
  | behaviour (b : Behaviour) (args : List Bytes) (w : World) :
      Step w ((Expression.runBehaviour b args).run w).2
  | method (self : Value) (name : Bytes) (args : List Bytes) (w : World) :
      Step w ((Expression.runMethod self name args).run w).2
  | load (id : Nat) (name : Bytes) (w : World) : Step w (w.loadProgram id name).2
  | cook (id : Nat) (w : World) : Step w (w.cook id).2
  | translate (settings : Nat) (m : Message) (w : World) : Step w (w.translate settings m).2
  | compare (a b : Value) (w : World) : Step w (w.noteCompared a b)

/-- The changes that a sequence of steps can make. -/
def World.Evolves : World → World → Prop := Relation.ReflTransGen World.Step

namespace World.Evolves

theorem refl (w : World) : w.Evolves w := Relation.ReflTransGen.refl

theorem trans {u v w : World} (h : u.Evolves v) (h' : v.Evolves w) : u.Evolves w :=
  Relation.ReflTransGen.trans h h'

theorem single {v w : World} (h : v.Step w) : v.Evolves w := Relation.ReflTransGen.single h

end World.Evolves

/-- From outside the programs look the same: they may differ in what they render. -/
structure Program.Resembles (p p' : Program) : Prop where
  filename : p'.filename = p.filename
  source : p'.source = p.source
  settings : p'.settings = p.settings
  macroNames : p'.macroNames = p.macroNames

namespace Program.Resembles

variable {p p' : Program}

theorem refl (p : Program) : p.Resembles p := ⟨rfl, rfl, rfl, rfl⟩

theorem macroTable (h : p.Resembles p') (id : Nat) : p'.macroTable id = p.macroTable id := by
  have htable : ∀ q : Program, q.macroTable id =
      .map .text .callable (q.macroNames.map fun n => (.text n, .namedMacro id q.filename n)) := fun q => by
    rw [Program.macroTable, Program.macroNames, List.map_map]
    rfl
  rw [htable, htable, h.filename, h.macroNames]

end Program.Resembles

/-- The worlds are the same but for what their programs render. -/
inductive World.Resembles (w : World) : World → Prop where
  | intro (programs : List Program) (h : ∀ id, (w.program id).Resembles (programs.getD id default)) :
      Resembles w { w with programs }

namespace World.Resembles

open Expression

theorem refl (w : World) : w.Resembles w := .intro w.programs fun id => .refl (w.program id)

variable {w w' : World}

theorem program (h : w.Resembles w') (id : Nat) : (w.program id).Resembles (w'.program id) := by
  obtain ⟨programs, h⟩ := h
  exact h id

theorem heap (h : w.Resembles w') : w'.heap = w.heap := by
  obtain ⟨programs, h⟩ := h
  rfl

theorem fieldsOf? (h : w.Resembles w') : Expression.fieldsOf? w' = Expression.fieldsOf? w := by
  funext v
  have hprogram := h.program
  obtain ⟨programs, _⟩ := h
  cases v with
  | program id _ =>
    simp only [Expression.fieldsOf?]
    rw [(hprogram id).filename, (hprogram id).source, (hprogram id).macroTable]
  | _ => rfl

theorem entriesOf? (h : w.Resembles w') : Expression.entriesOf? w' = Expression.entriesOf? w := by
  funext v
  have hheap := h.heap
  fun_induction Expression.entriesOf? w v <;> simp_all [Expression.entriesOf?]

theorem pointee (h : w.Resembles w') : Expression.pointee w' = Expression.pointee w := by
  funext v
  have hfields := h.fieldsOf?
  fun_induction Expression.pointee w v <;> simp_all [Expression.pointee]

theorem fetch (h : w.Resembles w') : Expression.fetch w' = Expression.fetch w := by
  funext lenient base key
  rw [Expression.fetch, Expression.fetch, h.entriesOf?, h.fieldsOf?]

theorem isMember (h : w.Resembles w') : Expression.isMember w' = Expression.isMember w := by
  funext needle whole
  rw [Expression.isMember, Expression.isMember, h.entriesOf?, h.fieldsOf?]

theorem lengthOf (h : w.Resembles w') : Expression.lengthOf w' = Expression.lengthOf w := by
  funext v
  rw [Expression.lengthOf, Expression.lengthOf, h.entriesOf?]

theorem applyFunction (h : w.Resembles w') : Expression.applyFunction w' = Expression.applyFunction w := by
  funext b args
  simp only [Expression.applyFunction, h.lengthOf, h.fetch]

theorem loopElements (h : w.Resembles w') : Expression.loopElements w' = Expression.loopElements w := by
  funext v
  simp only [Expression.loopElements, h.entriesOf?, h.heap]

theorem traverseParts (h : w.Resembles w') : Expression.traverseParts w' = Expression.traverseParts w := by
  funext whole name
  rw [Expression.traverseParts, Expression.traverseParts, h.entriesOf?, h.fieldsOf?]

theorem ownTraversal? (h : w.Resembles w') : Expression.ownTraversal? w' = Expression.ownTraversal? w := by
  funext v name
  simp only [Expression.ownTraversal?, h.heap]

end World.Resembles

section Respects

variable {σ ε α β : Type}

/-- The results are the same and the states after them are related. -/
def Matched (R : σ → σ → Prop) (p p' : α × σ) : Prop := p'.1 = p.1 ∧ R p.2 p'.2

theorem Matched.exists {R : σ → σ → Prop} {p p' : α × σ} (h : Matched R p p') :
    ∃ a s s', p = (a, s) ∧ p' = (a, s') ∧ R s s' :=
  ⟨p.1, p.2, p'.2, rfl, Prod.ext h.1 rfl, h.2⟩

/-- From related states the computation comes to the same, and to related states. -/
def Respects (R : σ → σ → Prop) (act : StateM σ α) : Prop := ∀ s s', R s s' → Matched R (act.run s) (act.run s')

namespace Respects

variable {R : σ → σ → Prop}

theorem pure (a : α) : Respects R (Pure.pure a : ExceptT ε (StateM σ) α).run := fun _ _ h => ⟨rfl, h⟩

theorem throw (e : ε) : Respects R (MonadExcept.throw e : ExceptT ε (StateM σ) α).run := fun _ _ h => ⟨rfl, h⟩

theorem plain_pure (a : α) : Respects R (Pure.pure a) := fun _ _ h => ⟨rfl, h⟩

theorem plain_bind {x : StateM σ α} {f : α → StateM σ β} (hx : Respects R x) (hf : ∀ a, Respects R (f a)) :
    Respects R (x >>= f) := by
  intro s s' h
  obtain ⟨hresult, hstates⟩ := hx s s' h
  have hrest := hf (x.run s).1 _ _ hstates
  change Matched R ((f (x.run s).1).run (x.run s).2) ((f (x.run s').1).run (x.run s').2)
  rw [hresult]
  exact hrest

theorem plain_get_bind {f : σ → StateM σ α} (heq : ∀ s s', R s s' → f s' = f s) (hf : ∀ s, Respects R (f s)) :
    Respects R (get >>= f) := by
  intro s s' h
  have hrest := hf s s s' h
  change Matched R ((f s).run s) ((f s').run s')
  rw [heq s s' h]
  exact hrest

theorem bind {x : ExceptT ε (StateM σ) α} {f : α → ExceptT ε (StateM σ) β} (hx : Respects R x.run)
    (hf : ∀ a, Respects R (f a).run) : Respects R (x >>= f).run := by
  refine plain_bind (f := ExceptT.bindCont f) hx fun r => ?_
  cases r with
  | ok a => exact hf a
  | error e => exact fun _ _ h => ⟨rfl, h⟩

end Respects

end Respects

open Expression in
/-- Two related worlds look the same, and the same steps have the same results and leave them related. -/
structure World.Bisimulation (R : World → World → Prop) : Prop where
  resembles {w w' : World} : R w w' → w.Resembles w'
  behaviour (b : Behaviour) (args : List Bytes) : Respects R (runBehaviour b args)
  method (self : Value) (name : Bytes) (args : List Bytes) : Respects R (runMethod self name args)
  load (id : Nat) (name : Bytes) {w w' : World} : R w w' → Matched R (w.loadProgram id name) (w'.loadProgram id name)
  cook (id : Nat) {w w' : World} : R w w' → Matched R (w.cook id) (w'.cook id)
  translate (settings : Nat) (m : Message) {w w' : World} : R w w' →
    Matched R (w.translate settings m) (w'.translate settings m)
  compare (a b : Value) {w w' : World} : R w w' → R (w.noteCompared a b) (w'.noteCompared a b)

theorem Matched.programValue {R : World → World → Prop} (hR : ∀ w w', R w w' → w.Resembles w')
    {p p' : Except Failure Nat × World} (h : Matched R p p') :
    Matched R (World.programValue p) (World.programValue p') := by
  obtain ⟨r, w, w', rfl, rfl, hworlds⟩ := h.exists
  have hsettings : (fun p => Value.program p (w'.program p).settings) = fun p => .program p (w.program p).settings :=
    funext fun p => by rw [((hR w w' hworlds).program p).settings]
  exact ⟨congrArg (fun f => r.map f) hsettings, hworlds⟩

/-! ### Plans -/

namespace Expression

/-- The worlds that the runs work on are related, and all else is the same. -/
structure Workbench.Related (R : World → World → Prop) (b b' : Workbench) : Prop where
  world : R b.world b'.world
  stack : b'.stack = b.stack
  made : b'.made = b.made

/-- Runs of a plan on related worlds come to the same. -/
abbrev Eval.Respects {α : Type} (R : World → World → Prop) (act : Eval α) : Prop :=
  PageTemplate.Respects (Workbench.Related R) act.run

variable {R : World → World → Prop}

namespace Eval

theorem respects_fail {α : Type} (m : Mishap) : (fail m : Eval α).Respects R := .throw _

theorem respects_lift {α : Type} (r : Except Mishap α) : (lift r).Respects R := by
  cases r with
  | ok a => exact .pure a
  | error m => exact respects_fail m

theorem respects_push (v : Value) : (push v).Respects R :=
  fun _ _ h => ⟨rfl, h.world, congrArg (v :: ·) h.stack, h.made⟩

theorem respects_top : top.Respects R := by
  rintro ⟨w, _, _⟩ ⟨w', stack, made⟩ ⟨h, rfl, rfl⟩
  cases stack <;> exact ⟨rfl, h, rfl, rfl⟩

theorem respects_pop : pop.Respects R := by
  rintro ⟨w, _, _⟩ ⟨w', stack, made⟩ ⟨h, rfl, rfl⟩
  cases stack <;> exact ⟨rfl, h, rfl, rfl⟩

theorem respects_popMany (n : Nat) : (popMany n).Respects R := by
  rintro ⟨w, _, _⟩ ⟨w', stack, made⟩ ⟨h, rfl, rfl⟩
  change Matched _ ((if (stack.take n).length < n then _ else _ : Eval _).run _)
    ((if (stack.take n).length < n then _ else _ : Eval _).run _)
  split <;> exact ⟨rfl, h, rfl, rfl⟩

theorem respects_replace (f : Value → Except Mishap Value) : (replace f).Respects R :=
  .bind respects_pop fun _ => .bind (respects_lift _) respects_push

theorem respects_combine (f : Value → Value → Except Mishap Value) : (combine f).Respects R :=
  .bind respects_pop fun _ => .bind respects_pop fun _ => .bind (respects_lift _) respects_push

theorem respects_holds : holds.Respects R := .bind respects_top fun _ => respects_lift _

theorem respects_make (n : Nat) : (make n).Respects R := by
  rintro ⟨w, _, _⟩ ⟨w', stack, made⟩ ⟨h, rfl, rfl⟩
  change Matched _ ((if made + n ≥ allowance then _ else _ : Eval _).run _)
    ((if made + n ≥ allowance then _ else _ : Eval _).run _)
  split <;> exact ⟨rfl, h, rfl, rfl⟩

theorem respects_gather (n : Nat) : (gather n).Respects R :=
  .bind (respects_make n) fun _ => .bind (respects_popMany n) fun _ => respects_push _

theorem respects_acting {act : Act (Except Mishap Value)} (h : PageTemplate.Respects R act) :
    (acting act).Respects R := by
  refine .bind (fun b b' hb => ?_) fun r => .bind (respects_lift r) respects_push
  obtain ⟨hresult, hworld⟩ := h b.world b'.world hb.world
  exact ⟨congrArg Except.ok hresult, hworld, hb.stack, hb.made⟩

theorem respects_world_bind {α : Type} {f : World → Eval α} (heq : ∀ w w', R w w' → f w' = f w)
    (hf : ∀ w, (f w).Respects R) : (world >>= f).Respects R := by
  intro b b' h
  have hrest := hf b.world b b' h
  change Matched _ ((f b.world).run b) ((f b'.world).run b')
  rw [heq _ _ h.world]
  exact hrest

end Eval

open Eval

variable (hR : World.Bisimulation R)

section Steps

include hR

theorem respects_comparing {f : World → Value → Value → Except Mishap Value} (hf : ∀ w w', R w w' → f w' = f w) :
    (comparing f).Respects R := by
  refine .bind respects_pop fun b => .bind respects_pop fun a => .bind (fun bench bench' h => ?_) fun _ => ?_
  · exact ⟨rfl, hR.compare a b h.world, h.stack, h.made⟩
  · exact respects_world_bind (fun w w' h => by rw [hf w w' h]) fun _ => .bind (respects_lift _) respects_push

theorem respects_invoke (f : Value) (texts : List Bytes) : Respects R (invoke f texts) := by
  unfold invoke
  split
  · exact hR.behaviour _ _
  · exact hR.method _ _ _
  · exact .plain_pure _

theorem respects_callFunction (f : Value) (args : List Value) : Respects R (callFunction f args) := by
  unfold callFunction
  split
  · exact .plain_pure _
  · split
    · exact .plain_pure _
    · split
      · exact .plain_pure _
      · exact .plain_bind (respects_invoke hR f _) fun _ => .plain_pure _

theorem respects_traverse (v : Value) (name : Bytes) : Respects R (traverse v name) := by
  refine .plain_get_bind (fun w w' h => ?_) fun w => ?_
  · simp only [(hR.resembles h).ownTraversal?, (hR.resembles h).traverseParts]
  · split
    · exact .plain_pure _
    · split
      · exact .plain_pure _
      · exact .plain_bind (hR.method _ _ _) fun _ => .plain_pure _
    · split <;> exact .plain_pure _

end Steps

include hR in
theorem respects_applyBinary (op : BinaryOp) (operands : Operands) :
    (applyBinary op operands).Respects R := by
  unfold applyBinary
  split
  · exact respects_comparing hR fun _ _ _ => rfl
  · exact respects_comparing hR fun _ _ _ => rfl
  · exact respects_comparing hR fun _ _ h => (hR.resembles h).isMember
  · exact .bind respects_pop fun _ => .bind respects_pop fun _ => .bind (respects_lift _) fun _ =>
      .bind (respects_make _) fun _ => respects_push _
  · exact respects_combine _

theorem respects_applyUnary (op : UnaryOp) : (applyUnary op).Respects R := by
  cases op with
  | not => exact respects_replace _
  | negate => exact respects_replace _
  | plus => exact .pure _

include hR in
theorem respects_runFunction (b : Builtin) (n : Nat) : (runFunction b n).Respects R :=
  .bind (respects_popMany _) fun _ =>
    respects_world_bind (fun _ _ h => by rw [(hR.resembles h).applyFunction]) fun _ =>
      .bind (respects_lift _) respects_push

theorem respects_gatherPairs (n : Nat) : (gatherPairs n).Respects R :=
  .bind (respects_make n) fun _ => .bind (respects_popMany _) fun _ =>
    .bind (respects_lift _) fun _ => respects_push _

theorem respects_pushElement (env : Env) : (pushElement env).Respects R := by
  unfold pushElement
  split
  · exact respects_push _
  · exact respects_fail _

section Loops

variable {test act : Action} (htest : ∀ env, (test env).Respects R) (hact : ∀ env, (act env).Respects R)
include htest

theorem respects_passes (env : Env) : (passes test env).Respects R :=
  .bind (htest env) fun _ => .bind respects_holds fun _ => .bind respects_pop fun _ => .pure _

theorem respects_untilDecided (decisive : Bool) (env : Env) (vs : List (Option Value)) :
    (untilDecided decisive test env vs).Respects R := by
  induction vs with
  | nil => exact respects_push _
  | cons v vs ih =>
    refine .bind (htest _) fun _ => .bind respects_holds fun _ => ?_
    split
    · exact .pure _
    · exact .bind respects_pop fun _ => ih

theorem respects_forAll (env : Env) (vs : List (Option Value)) : (forAll test env vs).Respects R := by
  induction vs with
  | nil => exact .pure _
  | cons v vs ih => exact .bind (htest _) fun _ => ih

include hact

theorem respects_forPassing (env : Env) (vs : List (Option Value)) (n : Nat) :
    (forPassing test act env vs n).Respects R := by
  induction vs generalizing env n with
  | nil => exact .pure _
  | cons v vs ih =>
    refine .bind (respects_passes htest _) fun _ => ?_
    split
    · exact .bind (hact _) fun _ => ih _ _
    · exact ih _ _

theorem respects_forFirst (env : Env) (vs : List (Option Value)) :
    (forFirst test act env vs).Respects R := by
  induction vs generalizing env with
  | nil => exact .pure _
  | cons v vs ih =>
    refine .bind (respects_passes htest _) fun _ => ?_
    split
    · exact .bind (hact _) fun _ => .pure _
    · exact ih _

theorem respects_loopOver (pass : Pass) (env : Env) (vs : List (Option Value)) :
    (loopOver pass test act env vs).Respects R := by
  have hfound : ∀ required there, (loopOver.found required there).Respects R := by
    intro required there
    unfold loopOver.found
    split
    · exact .pure _
    · split
      · exact respects_fail _
      · exact respects_push _
  cases pass with
  | map => exact .bind (respects_forAll htest _ _) fun _ => respects_gather _
  | filter => exact .bind (respects_forPassing htest hact _ _ _) fun _ => respects_gather _
  | count =>
    exact .bind (respects_forPassing htest (fun _ => .pure _) _ _ _) fun _ => respects_push _
  | all => exact respects_untilDecided htest _ _ _
  | any => exact respects_untilDecided htest _ _ _
  | find required => exact .bind (respects_forFirst htest hact _ _) fun _ => hfound _ _
  | findLast required => exact .bind (respects_forFirst htest hact _ _) fun _ => hfound _ _

include hR in
theorem respects_runLoop (pass : Pass) (env : Env) : (runLoop pass test act env).Respects R :=
  .bind respects_pop fun _ =>
    respects_world_bind (fun _ _ h => by rw [(hR.resembles h).loopElements]) fun _ =>
      .bind (respects_lift _) fun _ => respects_loopOver htest hact _ _ _

end Loops

/-! Running plans. -/

include hR in
theorem respects_pushMember (vs : List Value) : (pushMember vs).Respects R := by
  unfold pushMember
  split
  · exact respects_world_bind (fun _ _ h => by rw [(hR.resembles h).fetch]) fun _ =>
      .bind (respects_lift _) fun _ => respects_push _
  · exact respects_fail _

theorem respects_settle (asIs : Bool) : (settle asIs).Respects R := by
  refine .bind respects_top fun v => ?_
  split
  · exact .bind respects_pop fun _ => respects_push _
  · exact .pure _

theorem respects_completed (asIs : Bool) {run : Eval Unit} (hrun : run.Respects R) :
    (completed asIs run).Respects R := by
  intro b b' h
  have hrun : Matched _ (run.run b) (run.run b') := hrun b b' h
  obtain ⟨r, s, s', hfirst, hfirst', hstates⟩ := hrun.exists
  change Matched _ (completed asIs run b) (completed asIs run b')
  rw [completed, completed, hfirst, hfirst']
  -- A mishap ends the part as it is; a result and a cut are settled in the same way.
  cases r with
  | ok _ => exact respects_settle asIs s s' hstates
  | error stop =>
    cases stop with
    | mishap m => exact ⟨rfl, hstates⟩
    | cut => exact respects_settle asIs s s' hstates

namespace Plan

mutual

theorem respects_run (hR : World.Bisimulation R) (env : Env) : ∀ p : Plan, (p.run env).Respects R
  | constant c => respects_push c.toValue
  | name n => respects_push _
  | element => respects_pushElement env
  | list items => .bind (respects_runAll hR env items) fun _ => respects_gather _
  | dict pairs => .bind (respects_runPairs hR env pairs) fun _ => respects_gatherPairs _
  | deref p =>
    .bind (respects_run hR env p) fun _ =>
      respects_world_bind (fun _ _ h => by rw [(hR.resembles h).pointee]) fun _ => respects_replace _
  | unary op p => .bind (respects_run hR env p) fun _ => respects_applyUnary op
  | binary op operands l r => by
    have hl := respects_run hR env l
    have hr := respects_run hR env r
    -- Three operators may leave out their right side; the others run both sides first.
    cases op
    case or =>
      refine .bind hl fun _ => .bind respects_holds fun b => ?_
      cases b
      · exact .bind respects_pop fun _ => hr
      · exact .pure _
    case and =>
      refine .bind hl fun _ => .bind respects_holds fun b => ?_
      cases b
      · exact .pure _
      · exact .bind respects_pop fun _ => hr
    case coalesce =>
      refine .bind hl fun _ => .bind respects_top fun v => ?_
      split
      · exact .bind respects_pop fun _ => hr
      · exact .pure _
    all_goals exact .bind hl fun _ => .bind hr fun _ => respects_applyBinary hR _ _
  | fetch args =>
    .bind (respects_runAll hR env args) fun _ => .bind (respects_popMany _) fun vs => respects_pushMember hR vs
  | member base key optional => by
    have hread : (do
        key.run env
        let w ← world
        combine (Expression.fetch w true) : Eval Unit).Respects R :=
      .bind (respects_run hR env key) fun _ =>
        respects_world_bind (fun _ _ h => by rw [(hR.resembles h).fetch]) fun _ => respects_combine _
    refine .bind (respects_run hR env base) fun _ => .bind respects_top fun v => ?_
    split
    · exact .bind (.throw _) fun _ => hread
    · exact hread
  | chain p asIs => respects_completed asIs (respects_run hR env p)
  | slice base lo hi =>
    .bind (respects_run hR env base) fun _ => .bind (respects_runEnd hR env hi) fun _ =>
      .bind (respects_runStart hR env lo) fun _ => .bind respects_pop fun _ =>
        .bind respects_pop fun _ => respects_replace _
  | call callee args =>
    .bind (respects_runAll hR env args) fun _ => .bind (respects_run hR env callee) fun _ =>
      .bind respects_pop fun _ => .bind (respects_popMany _) fun _ =>
        respects_acting (respects_callFunction hR _ _)
  | apply b args => .bind (respects_runAll hR env args) fun _ => respects_runFunction hR b _
  | loop pass source body f =>
    .bind (respects_run hR env source) fun _ =>
      respects_runLoop hR (fun env => respects_run hR env body) (respects_actionOf hR f) pass env
  | conditional test yes no => by
    refine .bind (respects_run hR env test) fun _ => .bind respects_holds fun b =>
      .bind respects_pop fun _ => ?_
    cases b
    · exact respects_run hR env no
    · exact respects_run hR env yes
  | binding n value body =>
    .bind (respects_run hR env value) fun _ => .bind respects_pop fun _ => respects_run hR _ body
  | sequence ps => respects_runSequence hR env ps

theorem respects_runAll (hR : World.Bisimulation R) (env : Env) : ∀ ps : List Plan, (runAll env ps).Respects R
  | [] => .pure _
  | p :: ps => .bind (respects_run hR env p) fun _ => respects_runAll hR env ps

theorem respects_runPairs (hR : World.Bisimulation R) (env : Env) : ∀ ps : List (Plan × Plan), (runPairs env ps).Respects R
  | [] => .pure _
  | (k, v) :: ps =>
    .bind (respects_run hR env k) fun _ => .bind (respects_run hR env v) fun _ => respects_runPairs hR env ps

theorem respects_runEnd (hR : World.Bisimulation R) (env : Env) : ∀ p : Option Plan, (runEnd env p).Respects R
  | some p => respects_run hR env p
  | none => by
    refine .bind respects_top fun v => ?_
    split
    · exact respects_push _
    · exact respects_fail _

theorem respects_runStart (hR : World.Bisimulation R) (env : Env) : ∀ p : Option Plan, (runStart env p).Respects R
  | some p => respects_run hR env p
  | none => respects_push _

theorem respects_actionOf (hR : World.Bisimulation R) : ∀ (p : Option Plan) (env : Env), (actionOf p env).Respects R
  | none, env => respects_pushElement env
  | some p, env => respects_run hR env p

theorem respects_runSequence (hR : World.Bisimulation R) (env : Env) : ∀ ps : List Plan, (runSequence env ps).Respects R
  | [] => .pure _
  | [p] => respects_run hR env p
  | p :: q :: ps =>
    .bind (respects_run hR env p) fun _ => .bind respects_pop fun _ => respects_runSequence hR env (q :: ps)

end

include hR in
theorem matched_value (p : Plan) (vars : Vars) {w w' : World} (h : R w w') :
    Matched R (p.value vars w) (p.value vars w') := by
  obtain ⟨r, s, s', hrun, hrun', hstates⟩ :=
    (respects_run hR { vars } p { world := w } { world := w' } ⟨h, rfl, rfl⟩).exists
  unfold value
  rw [show (p.run { vars }).run { world := w } = (r, s) from hrun,
    show (p.run { vars }).run { world := w' } = (r, s') from hrun']
  cases r with
  | ok _ => exact ⟨congrArg (fun vs : List Value => Except.ok (vs.headD .nil)) hstates.stack, hstates.world⟩
  | error stop =>
    cases stop with
    | mishap m => exact ⟨rfl, hstates.world⟩
    | cut => exact ⟨congrArg (fun vs : List Value => Except.ok (vs.headD .nil)) hstates.stack, hstates.world⟩

end Plan

end Expression

namespace Evaluator

open Expression

/-- An expression comes to the same in related worlds. -/
abbrev Evaluation.Respects {α : Type} (R : World → World → Prop) (act : Evaluation α) : Prop :=
  PageTemplate.Respects R act.run

variable {R : World → World → Prop} (hR : World.Bisimulation R)

include hR in
theorem respects_evalPlan (vars : Vars) (source : Bytes) (names : List Bytes) (p : Plan) :
    (evalPlan vars source names p).Respects R := by
  intro w w' h
  change Matched R (evalPlan vars source names p w) (evalPlan vars source names p w')
  obtain ⟨r, u, u', hvalue, hvalue', hworlds⟩ := (p.matched_value hR vars h).exists
  rw [evalPlan, evalPlan, hvalue, hvalue']
  split
  · exact ⟨rfl, h⟩
  · cases r <;> exact ⟨rfl, hworlds⟩

include hR in
theorem respects_follow (v : Value) (segments : List Bytes) : (follow v segments).Respects R := by
  induction segments generalizing v with
  | nil => exact .pure v
  | cons s ss ih =>
    refine .bind (fun w w' h => ?_) fun r => ?_
    · obtain ⟨hresult, hworlds⟩ := respects_traverse hR v s w w' h
      exact ⟨congrArg Except.ok hresult, hworlds⟩
    · cases r with
      | ok v => exact ih v
      | error f => exact .throw f

include hR in
theorem respects_resolved (v : Value) : (resolved v).Respects R :=
  fun _ _ h => ⟨congrArg (fun heap : Heap => Except.ok (heap.resolve v)) (hR.resembles h).heap, h⟩

theorem run_fallback (x : Evaluation Value) (found : Value → Value) (other : Evaluation Value) (w : World) :
    (fallback x found other).run w =
      match x.run w with
      | (.ok v, w) => (.ok (found v), w)
      | (.error f, w) => if f.fallsThrough then other.run w else (.error f, w) := rfl

theorem respects_fallback {x other : Evaluation Value} (hx : x.Respects R) (found : Value → Value)
    (hother : other.Respects R) : (fallback x found other).Respects R := by
  intro w w' h
  have hx : Matched R (x.run w) (x.run w') := hx w w' h
  obtain ⟨r, u, u', hfirst, hfirst', hworlds⟩ := hx.exists
  change Matched R ((fallback x found other).run w) ((fallback x found other).run w')
  rw [run_fallback, run_fallback, hfirst, hfirst']
  cases r with
  | ok v => exact ⟨rfl, hworlds⟩
  | error f =>
    dsimp only
    split
    · exact hother u u' hworlds
    · exact ⟨rfl, hworlds⟩

include hR in
theorem respects_load (template : Nat) (name : Bytes) (vars : Vars) : ((load template name).eval vars).Respects R :=
  fun _ _ h => (hR.load template name h).programValue fun _ _ => hR.resembles

include hR in
theorem respects_host (eval : Assoc Value → Heap → Except Failure Value × Nat) (vars : Vars) :
    ((host eval).eval vars).Respects R := by
  intro w w' h
  have hheap := (hR.resembles h).heap
  -- A function of the host could set the number in the same way.
  have hcalls : ∀ n, R { w with heap := w.heap.withCalls n } { w' with heap := w'.heap.withCalls n } :=
    fun n => (hR.behaviour (.host {} fun _ _ => (.ok [], n)) [] w w' h).2
  refine ⟨?_, ?_⟩
  · change (eval vars w'.heap).1 = (eval vars w.heap).1
    rw [hheap]
  · change R _ { w' with heap := w'.heap.withCalls (eval vars w'.heap).2 }
    rw [congrArg (eval vars) hheap]
    exact hcalls _

mutual

/-- In related worlds an expression has the same value or failure, and leaves them related. -/
theorem respects_eval (hR : World.Bisimulation R) (vars : Vars) : ∀ e : Evaluator, (e.eval vars).Respects R
  | term source names p => respects_evalPlan hR vars source names p
  | path head segments => by
    refine .bind ?_ fun v => respects_follow hR v segments
    cases vars.find head with
    | ok v => exact .pure v
    | error f => exact .throw f
  | concat parts => .bind (respects_evalTexts hR vars parts) fun _ => .pure _
  | constant v => .pure v
  | failing f => .throw f
  | negated e => .bind (respects_eval hR vars e) fun _ => .bind (respects_resolved hR _) fun _ => .pure _
  | present e => respects_fallback (respects_eval hR vars e) _ (.pure _)
  | asMarkup e => .bind (respects_eval hR vars e) fun _ => .bind (respects_resolved hR _) fun _ => .pure _
  | load template name => respects_load hR template name vars
  | alternatives es => respects_evalFirst hR vars es
  | host eval => respects_host hR eval vars

theorem respects_evalTexts (hR : World.Bisimulation R) (vars : Vars) : ∀ es : List Evaluator, (evalTexts vars es).Respects R
  | [] => .pure _
  | e :: es =>
    .bind (respects_eval hR vars e) fun _ => .bind (respects_resolved hR _) fun _ =>
      .bind (respects_evalTexts hR vars es) fun _ => .pure _

theorem respects_evalFirst (hR : World.Bisimulation R) (vars : Vars) : ∀ es : List Evaluator, (evalFirst vars es).Respects R
  | [] => .pure _
  | [e] => respects_eval hR vars e
  | e :: e' :: es => respects_fallback (respects_eval hR vars e) id (respects_evalFirst hR vars (e' :: es))

end

end Evaluator

/-! ### What expressions do to the world -/

/-- The world is the same on both sides, and it has a property. -/
def World.Having (I : World → Prop) (w w' : World) : Prop := w' = w ∧ I w

theorem World.Having.bisimulation {I : World → Prop} (hI : ∀ {w u : World}, w.Step u → I w → I u) :
    World.Bisimulation (World.Having I) := by
  have hsteps : ∀ {α : Type} {act : World → α × World}, (∀ w, World.Step w (act w).2) → ∀ w w', World.Having I w w' →
      Matched (World.Having I) (act w) (act w') := by
    rintro _ _ hstep w _ ⟨rfl, hw⟩
    exact ⟨rfl, rfl, hI (hstep _) hw⟩
  exact {
    resembles := fun {w _} h => h.1 ▸ .refl w
    behaviour := fun b args => hsteps (.behaviour b args)
    method := fun self name args => hsteps (.method self name args)
    load := fun id name _ _ => hsteps (.load id name) _ _
    cook := fun id _ _ => hsteps (.cook id) _ _
    translate := fun settings m _ _ => hsteps (.translate settings m) _ _
    compare := fun a b {w _} h => ⟨by rw [h.1], hI (.compare a b w) h.2⟩ }

theorem Evaluator.evolves_eval (vars : Vars) (e : Evaluator) (w : World) : w.Evolves ((e.eval vars).run w).2 := by
  have hreached := World.Having.bisimulation (I := w.Evolves) fun hstep hw => hw.trans (.single hstep)
  exact (respects_eval hreached vars e w w ⟨rfl, .refl w⟩).2.2

end PageTemplate
