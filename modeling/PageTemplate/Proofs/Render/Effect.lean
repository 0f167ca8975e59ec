import PageTemplate.Proofs.Programs
import PageTemplate.Proofs.Render.Closure
import PageTemplate.Proofs.Render.Construct

/-!
What rendering does to the state, for relations that look at some of it only. A relation is `Elementary` if it holds
across the steps for expressions, texts and attributes, `Detached` if it also does not look at the output, the open
message, what activations remember and the journal of switches, and `Compatible` if it does not look at recorded
failures either. What remains is how it fares with bindings, loops, fills and macro calls. `Closed.keeps_node` is the
result for nodes, and `Outlasting` and `Lasting` are for relations that hold across all. A relation may hold only where
certain expressions are evaluated.
-/

namespace PageTemplate.Render

open Run (Keeps)

variable {R : State → State → Prop} {E : Frame → Compiled → Prop}

/-- That a run keeps a relation, as a property of runs. -/
abbrev keeping (R : State → State → Prop) : Property := fun _ _ act => Keeps R act

/-- The opening of the switch that an event is about. -/
def Event.opening? : Event → Option Nat
  | .opened s _ | .weighed s _ | .judged s _ | .chosen s => some s
  | _ => none

/-! ### Steps -/

/-- The relation holds across evaluation, events apart from switches, added output, and recorded failures. -/
structure Elementary (R : State → State → Prop) (E : Frame → Compiled → Prop := fun _ _ => True) : Prop where
  refl (st : State) : R st st
  trans {st₁ st₂ st₃ : State} : R st₁ st₂ → R st₂ st₃ → R st₁ st₃
  world (st : State) {w : World} : st.world.Evolves w → R st { st with world := w }
  events (st : State) {ev : Event} : ev.opening? = none → R st { st with events := ev :: st.events }
  views (st : State) {frame : Frame} {e : Compiled} (w : World) : E frame e →
    R st { st with views := ⟨frame, e, st.vars, st.assigned, w⟩ :: st.views }
  append (st : State) (s : Bytes) : R st { st with out := st.out.append s }
  record (st : State) (site : Site) (cause : Option Failure) :
    R st { st with remote := st.remote.record site cause }

namespace Elementary

variable {R : State → State → Prop} {E : Frame → Compiled → Prop} (hR : Elementary R E) {α β : Type}
include hR

theorem pure (a : α) : Keeps R (Pure.pure a) := by
  intro st r st' h
  cases h
  exact hR.refl st

theorem throw (f : Failure) : Keeps R (MonadExcept.throw f : Run α) := by
  intro st r st' h
  cases h
  exact hR.refl st

theorem get : Keeps R (MonadState.get : Run State) := by
  intro st r st' h
  cases h
  exact hR.refl st

theorem bind {x : Run α} {f : α → Run β} (hx : Keeps R x) (hf : ∀ a, Keeps R (f a)) :
    Keeps R (x >>= f) := by
  intro st r st' h
  rcases Run.run_bind_eq_some h with ⟨a, st₁, hfirst, hrest⟩ | ⟨e, hfirst, _⟩
  · exact hR.trans (hx _ _ _ hfirst) (hf a _ _ _ hrest)
  · exact hx _ _ _ hfirst

theorem lifted (r : Except Failure α) : Keeps R (liftExcept r : Run α) := by
  cases r with
  | ok a => exact hR.pure a
  | error f => exact hR.throw f

theorem restoring {restore : State → State} {x : Run α} (hx : Keeps R x)
    (hrestore : ∀ st, R st (restore st)) : Keeps R (Run.restoring restore x) := by
  intro st r st' h
  obtain ⟨st₁, hrun, rfl⟩ := Run.run_restoring_eq_some h
  exact hR.trans (hx _ _ _ hrun) (hrestore st₁)

theorem failAt (e : Compiled) (f : Failure) : Keeps R (failAt e f : Run α) := by
  unfold Render.failAt
  split
  · exact hR.bind (hR.throw f) fun _ => hR.bind (.modify fun st => hR.record st _ _) fun _ => hR.throw _
  · exact hR.bind (.modify fun st => hR.record st _ _) fun _ => hR.throw _

theorem evaluated {frame : Frame} {e : Compiled} (he : E frame e) (st : State) : R st (evaluation frame e st).2 := by
  have hworld := hR.world st (Evaluator.evolves_eval st.vars e.evaluator st.world)
  rw [evaluation]
  generalize (e.evaluator.eval st.vars).run st.world = p at hworld
  have hevent : R st { st with world := p.2, events := .evaluated e p.1 :: st.events } :=
    hR.trans hworld (hR.events { st with world := p.2 } rfl)
  exact hR.trans hevent (hR.views { st with world := p.2, events := .evaluated e p.1 :: st.events } st.world he)

theorem outcome (e : Compiled) (r : Except Failure Value) : Keeps R (outcome e r) := by
  cases r with
  | ok v => exact hR.pure v
  | error f => exact hR.failAt e f

theorem evaluateFresh {frame : Frame} {e : Compiled} (he : E frame e) : Keeps R (evaluateFresh frame e) := by
  rw [evaluateFresh_eq]
  refine hR.bind (fun st r st' h => ?_) fun r => hR.outcome e r
  cases h
  exact hR.evaluated he st

theorem note {event : Event} (hevent : event.opening? = none) : Keeps R (note event) :=
  .modify fun st => hR.events st hevent

theorem translate (frame : Frame) (msgid : Bytes) (mapping : Assoc Bytes) (fallback : Bytes) :
    Keeps R (translate frame msgid mapping fallback) := by
  have hlanguage : Keeps R (targetLanguage frame) := by
    refine hR.bind hR.get fun st => ?_
    split <;> exact hR.pure _
  refine hR.bind hlanguage fun language => ?_
  intro st r st' h
  cases h
  exact hR.trans (hR.world st (.single (.translate _ _ st.world))) (hR.events _ rfl)

theorem compositional : Compositional (keeping R) E where
  pure := hR.pure
  bind := hR.bind
  look hf _ := hR.bind hR.get hf
  write s := .modify fun st => hR.append st s
  evaluated he hf := hR.bind (hR.evaluateFresh he) hf
  noted known hact := by
    refine hR.bind (hR.note ?_) fun _ => hact
    cases known <;> rfl
  misused _ _ := hR.failAt _ _
  translate := hR.translate

theorem evaluate (frame : Frame) {e : Compiled} (he : E frame e) : Keeps R (evaluate frame e) :=
  hR.compositional.value (U := []) frame he

theorem compared (v value : Value) : Keeps R (modify fun st => { st with world := st.world.noteCompared v value }) :=
  .modify fun st => hR.world st (.single (.compare v value st.world))

theorem binding (hvars : ∀ st vs, R st { st with vars := vs }) (name : Bytes) (v : Value) {body : Run Unit}
    (hbody : Keeps R body) : Keeps R (binding name v body) :=
  hR.bind hR.get fun _ => hR.bind (.modify fun st => hvars st _) fun _ =>
    hR.restoring hbody fun st => hvars st _

theorem loopTable (hvars : ∀ st vs, R st { st with vars := vs })
    (hheap : ∀ (st : State) (h : Heap), R st { st with world := { st.world with heap := h } }) :
    Keeps R loopTable := by
  refine .get_bind fun st r st' h => ?_
  split at h
  · cases h
    exact hR.refl st
  · cases h
    exact hR.trans (hheap st _) (hvars { st with world := _ } _)

theorem activation (frame : Frame) : Keeps R (activation frame) := hR.bind hR.get fun _ => hR.pure _

section Cache

variable (hcached : ∀ frame (e : Compiled) v st, E frame e → R st (setCached frame e.id v st))
include hcached

theorem cacheValues (frame : Frame) (es : List Compiled) (hes : ∀ e ∈ es, E frame e) :
    Keeps R (cacheValues frame es) := by
  induction es with
  | nil => exact hR.pure _
  | cons e es ih =>
    obtain ⟨he, hes⟩ := List.forall_mem_cons.1 hes
    refine hR.bind (hR.evaluateFresh he).attempt fun r => ?_
    cases r with
    | error f => exact hR.pure _
    | ok v =>
      exact hR.bind (hR.activation frame) fun _ =>
        hR.bind (.modify fun st => hcached frame e _ st he) fun _ =>
          hR.bind (ih hes) fun _ => hR.pure _

theorem renderCache (frame : Frame) {exprs : List Compiled} (hexprs : ∀ e ∈ exprs, E frame e) {body : Run Unit}
    (hbody : Keeps R body) : Keeps R (renderCache frame exprs body) := by
  refine hR.bind (hR.cacheValues hcached frame exprs hexprs) fun p => ?_
  obtain ⟨previous, failed⟩ := p
  refine hR.restoring ?_ fun st => ?_
  · cases failed with
    | some f => exact hR.throw f
    | none => exact hbody
  · -- Forgetting one value after the other changes only what the activation remembers.
    have hzip : ∀ p ∈ exprs.zip previous, E frame p.1 := fun p hp => hexprs _ (List.of_mem_zip hp).1
    generalize exprs.zip previous = ps at hzip
    induction ps generalizing st with
    | nil => exact hR.refl st
    | cons p ps ih =>
      obtain ⟨hp, hps⟩ := List.forall_mem_cons.1 hzip
      exact hR.trans (hcached frame p.1 p.2 st hp) (ih _ hps)

end Cache

theorem renderOnError (hstart : ∀ before st, R st (handlerStart before st))
    (hbinding : ∀ (name : Bytes) (v : Value) {body : Run Unit},
      Keeps R body → Keeps R (Render.binding name v body))
    {body fallback : Run Unit} (hbody : Keeps R body) (hfallback : Keeps R fallback) :
    Keeps R (renderOnError body fallback) := by
  refine hR.bind hR.get fun before => hR.bind hbody.attempt fun r => ?_
  cases r with
  | ok _ => exact hR.pure _
  | error f => exact hR.bind (.modify (hstart before)) fun _ => hbinding _ _ hfallback

theorem cooked (id : Nat) {f : World → Nat → Run Unit} (hf : ∀ w program, Keeps R (f w program)) :
    Keeps R (do
      let st ← MonadState.get
      let (r, world) := st.world.cook id
      set { st with world }
      let program ← liftExcept r
      f world program) := by
  refine .get_bind fun st r st' h => ?_
  have hcook : R st { st with world := (st.world.cook id).2 } := hR.world st (.single (.cook id st.world))
  exact hR.trans hcook (hR.bind (hR.lifted _) (hf _) _ _ _ h)

theorem looping (hheap : ∀ (st : State) (h : Heap), R st { st with world := { st.world with heap := h } })
    (htable : Keeps R Render.loopTable) : Looping (keeping R) E where
  toCompositional := hR.compositional
  advance loop _ st r st' h := by
    cases h
    exact hheap st _
  heap _ := .modify fun st => hheap st _
  loopTable := htable
  restoringHeap _ _ hbody := hR.restoring hbody fun st => hheap st _

/-- A relation between what is remembered and noted holds across scopes, loops and handlers. -/
theorem structural (henclosing : Enclosing (keeping R) E)
    (hsame : ∀ {st st' : State}, st'.named = st.named → st'.activations = st.activations → st'.events = st.events →
      st'.views = st.views → R st st') : Structural (keeping R) E := by
  have hbinding := hR.binding fun _ _ => hsame rfl rfl rfl rfl
  have htable := hR.loopTable (fun _ _ => hsame rfl rfl rfl rfl) fun _ _ => hsame rfl rfl rfl rfl
  exact
    { toEnclosing := henclosing
      binding := fun name v _ hbody _ => hbinding name v (hbody [])
      loop := fun frame _ _ whitespace _ he hbody =>
        (hR.looping (fun _ _ => hsame rfl rfl rfl rfl) htable).renderLoop frame he whitespace fun _ =>
          always_bindingAll _ (fun b _ _ hb _ => hbinding b.1 b.2 (hb [])) hbody
      onError := fun hbody hfallback _ =>
        hR.renderOnError (fun _ _ => hsame rfl rfl rfl rfl) hbinding (hbody []) (hfallback []) }

end Elementary

theorem Elementary.pervasive (hR : Elementary R) (hstructural : Structural (keeping R))
    (hvars : ∀ st vs, R st { st with vars := vs }) (hglobal : ∀ name v, Keeps R (setGlobal name v))
    (hcached : ∀ frame id v st, R st (setCached frame id v st))
    (hfill : ∀ {call : Continuation}, (∀ frame n, Keeps R (call frame n)) → ∀ fill, Keeps R (renderFill call fill))
    (hbody : ∀ {call : Continuation}, (∀ frame n, Keeps R (call frame n)) →
      ∀ program bound body slots, Keeps R (renderBody call program bound body slots)) : Pervasive (keeping R) where
  toStructural := hstructural
  cache frame _ _ hexprs hbody _ := hR.renderCache (fun frame e v st _ => hcached frame e.id v st) frame hexprs (hbody [])
  exceeded _ := .exceeded
  missing _ _ := hR.throw _
  global name v _ := hglobal name v
  fill hcall fill _ := hfill (fun frame n => hcall frame n []) fill
  body hcall program bound body slots _ := hbody (fun frame n => hcall frame n []) program bound body slots
  cooked id _ hf := hR.cooked id hf
  merging hbody _ := hR.bind hR.get fun _ => hR.restoring (hbody []) fun st => hvars st _

/-! ### Messages, caches and switches -/

/-- The relation does not look at the output and the open message. -/
structure Textless (R : State → State → Prop) (E : Frame → Compiled → Prop := fun _ _ => True) : Prop
    extends Elementary R E where
  out (st : State) (o : Output) : R st { st with out := o }
  named (st : State) (m : Option (Assoc Bytes)) : R st { st with named := m }
  append st s := out st (st.out.append s)

namespace Textless

variable {R : State → State → Prop} {E : Frame → Compiled → Prop} (hR : Textless R E) {body : Run Unit}
  (hbody : Keeps R body)
include hR hbody

theorem capture (named : Option (Assoc Bytes)) : Keeps R (capture named body) := by
  refine .get_bind fun outer r st' h => ?_
  rw [Run.run_set_bind] at h
  have hopen : R outer { outer with out := {}, named } :=
    hR.trans (hR.out outer {}) (hR.named { outer with out := {} } named)
  -- The output and the open message of `outer` are put back after the body, which ran without them.
  rcases Run.run_bind_eq_some h with ⟨a, st₁, hattempt, hrest⟩ | ⟨e, hattempt, _⟩
  · refine hR.trans hopen (hR.trans (hbody.attempt _ _ _ hattempt) ?_)
    rw [Run.run_get_bind, Run.run_set_bind] at hrest
    have hclose : R st₁ { st₁ with out := outer.out, named := outer.named } :=
      hR.trans (hR.out st₁ outer.out) (hR.named { st₁ with out := outer.out } outer.named)
    refine hR.trans hclose (hR.bind (hR.lifted a) (fun _ => hR.pure _) _ _ _ hrest)
  · exact hR.trans hopen (hbody.attempt _ _ _ hattempt)

theorem renderName (name : Bytes) : Keeps R (renderName name body) := by
  refine hR.bind hR.get fun st => ?_
  split
  · exact hbody
  · exact hR.bind (hR.capture hbody none) fun _ =>
      hR.bind (.modify fun st => hR.named st _) fun _ => .modify fun st => hR.append st _

end Textless

/-- The relation does not look at events and at what activations remember of switches either. -/
structure Switchless (R : State → State → Prop) (E : Frame → Compiled → Prop := fun _ _ => True) : Prop
    extends Textless R E where
  noted (st : State) (ev : Event) : R st { st with events := ev :: st.events }
  switches (frame : Frame) (id : Int) (v : Option (Value × Bool)) (st : State) : R st (setSwitch frame id v st)
  openings (frame : Frame) (id : Int) (opening : Option Nat) (st : State) : R st (setOpening frame id opening st)
  events st _ _ := noted st _

namespace Switchless

variable {R : State → State → Prop} {E : Frame → Compiled → Prop} (hR : Switchless R E)
include hR

theorem switching : Switching (keeping R) E := by
  have hregister : ∀ frame id v opening st, R st (setRegister frame id v opening st) := fun frame id v opening st =>
    hR.trans (hR.switches frame id v st) (hR.openings frame id opening _)
  exact
    { toCompositional := hR.compositional
      note := fun _ => .modify fun st => hR.noted st _
      compared := hR.compared
      switch := fun frame id v => .modify (hR.switches frame id v)
      register := fun frame id v opening => .modify (hregister frame id v opening)
      restoringRegister := fun frame id v opening _ hbody => hR.restoring hbody (hregister frame id v opening) }

theorem enclosing : Enclosing (keeping R) E where
  toCompositional := hR.compositional
  capture named _ hbody _ := hR.capture (hbody []) named
  name name _ hbody _ := hR.renderName (hbody []) name
  switch frame id _ _ he hbody := hR.switching.renderSwitch hbody frame id he
  case frame id _ _ he hbody := hR.switching.renderCase hbody frame id he

end Switchless

/-- The relation does not look at anything that activations remember. -/
structure Detached (R : State → State → Prop) (E : Frame → Compiled → Prop := fun _ _ => True) : Prop
    extends Switchless R E where
  activations (st : State) (as : List Activation) : R st { st with activations := as }
  refl st := activations st st.activations
  switches _ _ _ st := activations st _
  openings _ _ _ st := activations st _

theorem Detached.always_cache (hR : Detached R E) (frame : Frame) {exprs : List Compiled} {body : Run Unit}
    (hexprs : ∀ e ∈ exprs, E frame e) (hbody : Always (keeping R) body) :
    Always (keeping R) (renderCache frame exprs body) := fun _ =>
  hR.toElementary.renderCache (fun _ _ _ st _ => hR.activations st _) frame hexprs (hbody [])

/-- The relation does not look at recorded failures either. -/
structure Compatible (R : State → State → Prop) (E : Frame → Compiled → Prop := fun _ _ => True) : Prop
    extends Detached R E where
  failures (st : State) (v : Value) :
    R st { st with remote := st.remote.insert Remote.errorKey v }
  record st _ _ := failures st _

/-- The relation looks neither at the output and the open message nor at events and activations. -/
structure Aloof (R : State → State → Prop) (E : Frame → Compiled → Prop := fun _ _ => True) : Prop
    extends Compatible R E where
  apart (st : State) (out : Output) (named : Option (Assoc Bytes)) (events : List Event) (as : List Activation) :
    R st { st with out, named, events, activations := as }
  noted st ev := apart st st.out st.named (ev :: st.events) st.activations
  out st out := apart st out st.named st.events st.activations
  named st named := apart st st.out named st.events st.activations
  activations st := apart st st.out st.named st.events

/-- The relation also holds across what is bound for a while. -/
structure Scoped (R : State → State → Prop) (E : Frame → Compiled → Prop := fun _ _ => True) : Prop
    extends Compatible R E where
  binding (name : Bytes) (v : Value) {body : Run Unit} :
    Keeps R body → Keeps R (Render.binding name v body)

theorem Compatible.scoped (hR : Compatible R E) (hvars : ∀ st vs, R st { st with vars := vs }) : Scoped R E where
  toCompatible := hR
  binding := hR.toElementary.binding hvars

theorem Compatible.handlerStart (hR : Compatible R E) (before st : State) : R st (handlerStart before st) := by
  refine hR.trans (hR.out st (st.out.truncate before.out.mark)) ?_
  -- Recorded failures are dropped by setting their entry once more.
  unfold Render.handlerStart Remote.truncateErrors
  split
  · exact hR.failures { st with out := _ } _
  · exact hR.refl _

namespace Scoped

variable {R : State → State → Prop} {E : Frame → Compiled → Prop} (hR : Scoped R E)
include hR

theorem always_binding (name : Bytes) (v : Value) {body : Run Unit} (hbody : Always (keeping R) body) :
    Always (keeping R) (Render.binding name v body) := fun _ => hR.binding name v (hbody [])

section Bodies

variable {body : Run Unit} (hbody : Keeps R body)
include hbody

theorem always_pass (names : List Bytes) (values : List Value) :
    Always (keeping R) (bindingAll (names.zip values) body) :=
  always_bindingAll _ (fun b _ => hR.always_binding b.1 b.2) fun _ => hbody

theorem renderOnError {fallback : Run Unit} (hfallback : Keeps R fallback) :
    Keeps R (renderOnError body fallback) :=
  hR.toElementary.renderOnError hR.handlerStart hR.binding hbody hfallback

theorem renderLoop (hheap : ∀ (st : State) (h : Heap), R st { st with world := { st.world with heap := h } })
    (htable : Keeps R loopTable) (frame : Frame) (names : List Bytes) {e : Compiled} (he : E frame e) (whitespace : Bytes) :
    Keeps R (renderLoop frame names e whitespace body) :=
  (hR.looping hheap htable).renderLoop frame he whitespace (hR.always_pass hbody names) []

end Bodies

theorem caching (hloop : ∀ (frame : Frame) (names : List Bytes) {e : Compiled} (whitespace : Bytes)
      {body : Run Unit}, E frame e → Keeps R body → Keeps R (Render.renderLoop frame names e whitespace body)) :
    Caching (keeping R) E where
  toEnclosing := hR.enclosing
  cache frame _ _ hexprs hbody := hR.always_cache frame hexprs hbody
  binding name v _ hbody := hR.always_binding name v hbody
  loop frame names _ whitespace _ he hbody _ := hloop frame names whitespace he (hbody [])
  onError hbody hfallback _ := hR.renderOnError (hbody []) (hfallback [])

end Scoped

/-- The relation holds across rendering a node below which only allowed nodes stand. -/
theorem Closed.keeps_node {call : Continuation} {Allowed : Node Compiled → Prop} (hR : Closed call (keeping R) Allowed)
    (n : Node Compiled) (frame : Frame) (h : ∀ m ∈ n.all, Allowed m) :
    Keeps R (Render.node call frame n) :=
  hR.node n frame h []

/-- The relation is about what lasts: it does not look at local variables, and holds across handlers, loops and
definitions for the whole render. -/
structure Outlasting (R : State → State → Prop) : Prop extends Detached R where
  vars (st : State) (vs : Vars) : R st { st with vars := vs }
  global (name : Bytes) (v : Value) : Keeps R (setGlobal name v)
  loop (frame : Frame) (names : List Bytes) (e : Compiled) (whitespace : Bytes) {body : Run Unit} :
    Keeps R body → Keeps R (renderLoop frame names e whitespace body)
  onError {body fallback : Run Unit} :
    Keeps R body → Keeps R fallback → Keeps R (renderOnError body fallback)

namespace Outlasting

variable {R : State → State → Prop} (hR : Outlasting R)
include hR

section Calls

variable {call : Continuation} (hcall : ∀ frame n, Keeps R (call frame n))
include hcall

theorem renderFill (fill : Node Compiled × Frame) : Keeps R (renderFill call fill) := by
  refine .get_bind fun st r st' h => ?_
  rw [Run.run_set_bind] at h
  refine hR.trans (hR.named st none) (hR.restoring (hcall fill.2 fill.1) (fun st₁ => ?_) _ _ _ h)
  exact hR.trans (hR.vars st₁ st.vars) (hR.named { st₁ with vars := st.vars } st.named)

theorem renderBody (program bound : Nat) (body : Node Compiled) (slots : Fills) :
    Keeps R (renderBody call program bound body slots) := by
  refine .get_bind fun st r st' h => ?_
  rw [Run.run_set_bind] at h
  have henter : ∀ vs as, R st { st with vars := vs, named := none, activations := as } :=
    fun vs as => hR.trans (hR.vars st vs)
      (hR.trans (hR.named { st with vars := vs } none)
        (hR.activations { st with vars := vs, named := none } as))
  refine hR.trans (henter _ _) (hR.restoring (hcall _ body) (fun st₁ => ?_) _ _ _ h)
  exact hR.trans (hR.named st₁ st.named) (hR.activations { st₁ with named := st.named } _)

end Calls

theorem structural : Structural (keeping R) where
  toEnclosing := hR.enclosing
  binding name v _ hbody _ := hR.toElementary.binding hR.vars name v (hbody [])
  loop frame names e whitespace _ _ hbody _ := hR.loop frame names e whitespace (hbody [])
  onError hbody hfallback _ := hR.onError (hbody []) (hfallback [])

theorem pervasive : Pervasive (keeping R) :=
  hR.toElementary.pervasive hR.structural hR.vars hR.global (fun _ _ _ st => hR.activations st _) hR.renderFill
    hR.renderBody

end Outlasting

/-- A relation about what outlasts scopes that does not look at recorded failures. -/
structure Lasting (R : State → State → Prop) : Prop extends Scoped R, Outlasting R where
  onError := fun hbody hfallback => toScoped.renderOnError hbody hfallback

section Compatible

variable (hvars : ∀ st vs, R st { st with vars := vs })
  (hheap : ∀ (st : State) (h : Heap), R st { st with world := { st.world with heap := h } })
include hvars hheap

theorem Compatible.caching (hR : Compatible R E) : Caching (keeping R) E :=
  (hR.scoped hvars).caching fun frame names _ whitespace _ he hbody =>
    (hR.scoped hvars).renderLoop hbody hheap (hR.loopTable hvars hheap) frame names he whitespace

theorem Compatible.lasting (hR : Compatible R) (hglobal : ∀ name v, Keeps R (setGlobal name v)) : Lasting R where
  toScoped := hR.scoped hvars
  vars := hvars
  global := hglobal
  loop frame names _ whitespace _ hbody := (hR.caching hvars hheap).loop frame names whitespace trivial (fun _ => hbody) []

end Compatible

namespace Lasting

variable {R : State → State → Prop} (hR : Lasting R) {call : Continuation}
  (hcall : ∀ frame n, Keeps R (call frame n))
include hR

/-- The relation holds across rendering anything, however deeply calls are nested. -/
theorem keeps_toDepth (depth : Nat) (frame : Frame) (n : Node Compiled) :
    Keeps R (toDepth depth frame n) :=
  hR.pervasive.toDepth depth frame n []

include hcall

theorem renderMacro (slots : Fills) (m : Value) :
    Keeps R (renderMacro call slots m) :=
  hR.pervasive.renderMacro (fun frame n _ => hcall frame n) slots m []

theorem rendering : Closed call (keeping R) fun _ => True where
  toCaching := hR.pervasive.toCaching
  fill fill _ := hR.renderFill hcall fill
  global _ _ name v _ := hR.global name v
  internal _ frame := hR.pervasive.callMacro (fun frame n _ => hcall frame n) frame _ _
  external _ frame := hR.pervasive.callMacro (fun frame n _ => hcall frame n) frame _ _

end Lasting

end PageTemplate.Render
