import PageTemplate.Proofs.Nodes
import PageTemplate.Proofs.Render.Run
import PageTemplate.Render

/-!
Properties that everything has that is rendered. A property of runs is `Compositional` if it goes from the steps of a
run to the whole and holds of the steps for expressions, texts and attributes; `Enclosing` adds the constructs that
render a body, `Structural` those that bind variables for it, and `Caching` those that remember values. The property may
depend on the values that expressions are known to have given, since these are to blame for what cannot be done with
them, and on which expressions are evaluated. `Guarded.node` is the induction over nodes, and `Pervasive.toDepth` the
one over the depth of calls.
-/

namespace PageTemplate

namespace Render

variable {body : Run Unit}
variable {E : Frame → Compiled → Prop}
variable {names : List Bytes} {Allowed : Node Compiled → Prop}

/-- What cannot be done with the value of an expression, and the failure that says so. -/
inductive Unfit : Value → Failure → Prop where
  | parts {v : Value} {n : Int} {f : Failure} : unpack v n = .error f → Unfit v f
  | source {h : Heap} {pairs : Bool} {v : Value} {f : Failure} : h.iterate pairs v = .error f → Unfit v f
  | attributes {w : World} {v : Value} {f : Failure} : mapEntries w v = .error f → Unfit v f
  | callee {v : Value} : isMacro v = false → Unfit v (.type (v.typeName ++ utf8 " is not a macro"))

/-- In an event, an expression gives a value, or a loop over its value gives an item. -/
inductive Event.Gives (e : Compiled) (v : Value) : Event → Prop where
  | evaluated : Gives e v (.evaluated e (.ok v))
  | recalled : Gives e v (.recalled e v)
  | delivered : Gives e v (.delivered e v)

/-- Values that expressions are known to have given. -/
abbrev Given := List (Compiled × Value)

/-- A property of runs, given some values of expressions. -/
abbrev Property := Given → (α : Type) → Run α → Prop

variable {P : Property}

/-- The property holds whatever values are given. -/
def Always (P : Property) {α : Type} (act : Run α) : Prop := ∀ U, P U α act

/-! ### Expressions, texts and attributes -/

def showContent (frame : Frame) (raw translated : Bool) (v : Value) : Run Unit := do
  if isBlank v then return
  else
    let v ← if translated then translateValue frame [] v else pure v
    let shown ← resolved v
    write (if raw then shown.toText else shown.toContent)

theorem renderContent_eq (frame : Frame) (e : Compiled) (raw translated : Bool) :
    renderContent frame e raw translated = evaluate frame e >>= showContent frame raw translated := rfl

/-- The property goes from steps to the run, and holds of the steps of texts and attributes and of given expressions. A
step that looks at the state does not look at output or message. -/
structure Compositional (P : Property) (E : Frame → Compiled → Prop := fun _ _ => True) : Prop where
  pure {U : Given} {α : Type} (a : α) : P U α (Pure.pure a)
  bind {U : Given} {α β : Type} {x : Run α} {f : α → Run β} :
    P U α x → (∀ a, P U β (f a)) → P U β (x >>= f)
  look {U : Given} {α : Type} {f : State → Run α} :
    (∀ st, P U α (f st)) → (∀ st o m, f { st with out := o, named := m } = f st) → P U α (get >>= f)
  write {U : Given} (s : Bytes) : P U Unit (write s)
  evaluated {U : Given} {α : Type} {frame : Frame} {e : Compiled} {f : Value → Run α} :
    E frame e → (∀ v, P ((e, v) :: U) α (f v)) → P U α (evaluateFresh frame e >>= f)
  noted {U : Given} {α : Type} {e : Compiled} {v : Value} {event : Event} {act : Run α} :
    event.Gives e v → P ((e, v) :: U) α act → P U α (note event >>= fun _ => act)
  misused {U : Given} {α : Type} {e : Compiled} {v : Value} {f : Failure} :
    (e, v) ∈ U → Unfit v f → P U α (failAt e f)
  translate {U : Given} (frame : Frame) (msgid : Bytes) (mapping : Assoc Bytes) (fallback : Bytes) :
    P U Bytes (translate frame msgid mapping fallback)

namespace Compositional

variable {P : Property} {E : Frame → Compiled → Prop} (hP : Compositional P E) {U : Given} {α : Type}
variable {e : Compiled}
include hP

variable (frame : Frame)

theorem resolved (v : Value) : P U Value (resolved v) := hP.look (fun _ => hP.pure _) fun _ _ _ => rfl

theorem truth (v : Value) : P U Bool (truth v) := hP.bind (hP.resolved v) fun _ => hP.pure _

theorem activation : P U Activation (activation frame) :=
  hP.look (fun _ => hP.pure _) fun _ _ _ => rfl

theorem evaluate (he : E frame e) {f : Value → Run α} (hf : ∀ v, P ((e, v) :: U) α (f v)) :
    P U α (evaluate frame e >>= f) := by
  rw [Render.evaluate, bind_assoc]
  refine hP.bind (hP.activation frame) fun a => ?_
  split
  · next v _ =>
    simp only [reuse, bind_assoc, pure_bind]
    exact hP.noted .recalled (hf v)
  · exact hP.evaluated he hf

theorem value (he : E frame e) : P U Value (Render.evaluate frame e) := by
  rw [← bind_pure (Render.evaluate frame e)]
  exact hP.evaluate frame he fun v => hP.pure v

theorem evaluateFresh (he : E frame e) : P U Value (evaluateFresh frame e) := by
  rw [← bind_pure (Render.evaluateFresh frame e)]
  exact hP.evaluated he fun v => hP.pure v

theorem agreesWith {value v : Value}
    (hcompared : P U Unit (modify fun st => { st with world := st.world.noteCompared v value })) :
    P U Bool (agreesWith value v) := by
  unfold Render.agreesWith
  split
  · exact hP.pure _
  · exact hP.bind hcompared fun _ => hP.pure _

theorem writeParts (ps : List (Part Compiled)) (hps : ∀ e ∈ ps.flatMap Part.exprs, E frame e) :
    P U Unit (writeParts frame ps) := by
  induction ps generalizing U with
  | nil => exact hP.pure _
  | cons p ps ih =>
    simp only [List.flatMap_cons, List.forall_mem_append] at hps
    have hrest : ∀ {U : Given}, P U Unit (Render.writeParts frame ps) := ih hps.2
    cases p with
    | literal s => exact hP.bind (hP.write s) fun _ => hrest
    | expr e =>
      refine hP.evaluate frame (hps.1 e List.mem_cons_self) fun v => ?_
      split
      · exact hP.bind (hP.resolved v) fun _ => hP.bind (hP.write _) fun _ => hrest
      · exact hrest

theorem attributeParts (quote : Bytes) (ps : List (Part Compiled)) (hps : ∀ e ∈ ps.flatMap Part.exprs, E frame e) :
    P U Bytes (attributeParts frame quote ps) := by
  induction ps generalizing U with
  | nil => exact hP.pure _
  | cons p ps ih =>
    simp only [List.flatMap_cons, List.forall_mem_append] at hps
    have hrest : ∀ {U : Given}, P U Bytes (Render.attributeParts frame quote ps) := ih hps.2
    cases p with
    | literal s => exact hP.bind hrest fun _ => hP.pure _
    | expr e =>
      refine hP.evaluate frame (hps.1 e List.mem_cons_self) fun v => ?_
      split
      · exact hP.bind (hP.pure _) fun _ => hP.bind hrest fun _ => hP.pure _
      · exact hP.bind (hP.resolved v) fun _ => hP.bind (hP.pure _) fun _ =>
          hP.bind hrest fun _ => hP.pure _

theorem interpolated (quote : Bytes) (ps : List (Part Compiled)) (hps : ∀ e ∈ ps.flatMap Part.exprs, E frame e) :
    P U Value (interpolated frame quote ps) := by
  unfold Render.interpolated
  split
  · exact hP.value frame (hps _ (by simp [Part.exprs]))
  · exact hP.bind (hP.attributeParts frame quote ps hps) fun _ => hP.pure _

theorem operand (o : Operand Compiled) (ho : ∀ e ∈ o.exprs, E frame e) :
    P U Value (operand frame o) := by
  induction o with
  | literal s => exact hP.pure _
  | expr e => exact hP.value frame (ho e List.mem_cons_self)
  | interpolated source ps => exact hP.interpolated frame _ ps ho
  | isDefault e => exact hP.evaluate frame (ho e List.mem_cons_self) fun _ => hP.pure _
  | not o ih => exact hP.bind (ih ho) fun v => hP.bind (hP.truth v) fun _ => hP.pure _
  | missing => exact hP.pure _

theorem unpackAt {v : Value} (hgiven : (e, v) ∈ U) (names : List Bytes) :
    P U (List Value) (unpackAt e names v) := by
  unfold Render.unpackAt
  split
  · split
    · exact hP.pure _
    · next f hf => exact hP.misused hgiven (.parts hf)
  · exact hP.pure _

theorem translateValue (msgid : Bytes) (v : Value) :
    P U Value (translateValue frame msgid v) := by
  refine hP.bind (hP.resolved v) fun shown => ?_
  dsimp only
  generalize (if msgid.isEmpty then shown.toText else msgid) = msgid
  split
  · exact hP.pure v
  · exact hP.bind (hP.translate frame _ [] _) fun _ => hP.pure _

theorem booleanAttributes : P U Bool (booleanAttributes frame) :=
  hP.look (fun _ => hP.pure _) fun _ _ _ => rfl

theorem attributeValue (a : DynamicAttribute Compiled) (ha : ∀ e ∈ a.value.exprs, E frame e) :
    P U Value (attributeValue frame a) := by
  unfold Render.attributeValue
  split
  · exact hP.pure _
  · next hvalue =>
    rw [hvalue] at ha
    exact hP.interpolated frame _ _ ha
  · exact hP.operand frame _ ha

theorem writeAttribute (a : DynamicAttribute Compiled) (v : Value) :
    P U Unit (writeAttribute frame a v) := by
  have hwrite : ∀ v, P U Unit (do
      Render.write (a.space ++ a.name ++ a.eq ++ a.quote ++ (← Render.resolved v).toAttribute a.quote ++ a.quote)) :=
    fun v => hP.bind (hP.resolved v) fun _ => hP.write _
  unfold Render.writeAttribute
  split
  · exact hP.bind (hP.translateValue frame _ v) hwrite
  · exact hP.bind (hP.pure v) hwrite

theorem renderAttribute (a : DynamicAttribute Compiled) (ha : ∀ e ∈ a.value.exprs, E frame e) :
    P U Unit (renderAttribute frame a) := by
  refine hP.bind (hP.attributeValue frame a ha) fun v => ?_
  split
  · split
    · exact hP.write _
    · exact hP.pure _
  · split
    · exact hP.pure _
    · refine hP.bind (hP.booleanAttributes frame) fun b => ?_
      split
      · refine hP.bind (hP.truth v) fun b => ?_
        split
        · exact hP.writeAttribute frame a _
        · exact hP.pure _
      · exact hP.writeAttribute frame a v

theorem writeEntries (exclude : List Bytes) (booleans : Bool) (entries : Assoc Value) :
    P U Unit (writeEntries exclude booleans entries) := by
  induction entries with
  | nil => exact hP.pure _
  | cons entry rest ih =>
    obtain ⟨name, v⟩ := entry
    unfold Render.writeEntries
    dsimp only
    split
    · split
      · refine hP.bind (hP.truth v) fun b => ?_
        split
        · exact hP.bind (hP.write _) fun _ => ih
        · exact ih
      · exact hP.bind (hP.resolved v) fun _ => hP.bind (hP.write _) fun _ => ih
    · exact ih

theorem renderAttributeMap (he : E frame e) (exclude : List Bytes) :
    P U Unit (renderAttributeMap frame e exclude) := by
  refine hP.evaluate frame he fun v => hP.look (fun st => ?_) fun _ _ _ => rfl
  split
  · exact hP.bind (hP.booleanAttributes frame) fun _ => hP.writeEntries exclude _ _
  · next f hf => exact hP.misused List.mem_cons_self (.attributes hf)

theorem showContent (raw translated : Bool) (v : Value) :
    P U Unit (showContent frame raw translated v) := by
  unfold Render.showContent
  split
  · exact hP.pure _
  · have hwrite : ∀ u, P U Unit (do
        let shown ← Render.resolved u
        Render.write (if raw then shown.toText else shown.toContent)) :=
      fun u => hP.bind (hP.resolved u) fun _ => hP.write _
    cases translated with
    | true => exact hP.bind (hP.translateValue frame [] v) hwrite
    | false => exact hP.bind (hP.pure v) hwrite

theorem renderContent (he : E frame e) (raw translated : Bool) :
    P U Unit (renderContent frame e raw translated) :=
  hP.evaluate frame he fun v => hP.showContent frame raw translated v

end Compositional

/-- What a property has to do with the journal to hold of the choice of a case. -/
structure Noting (P : Property) (E : Frame → Compiled → Prop := fun _ _ => True) : Prop extends Compositional P E where
  note {U : Given} (event : Event) : P U Unit (Render.note event)
  compared {U : Given} (v value : Value) :
    P U Unit (modify fun st => { st with world := st.world.noteCompared v value })

namespace Noting

variable {P : Property} {E : Frame → Compiled → Prop} (hP : Noting P E) {U : Given}
include hP

theorem noteOpening (v : Value) : P U Nat (noteOpening v) :=
  hP.look (fun _ => hP.bind (hP.note _) fun _ => hP.pure _) fun _ _ _ => rfl

theorem isChosen (frame : Frame) (opening : Nat) (value : Value) {e : Option Compiled} (he : ∀ e' ∈ e, E frame e') :
    P U Bool (isChosen frame opening value e) := by
  cases e with
  | none => exact hP.pure _
  | some e =>
    exact hP.bind (hP.note _) fun _ => hP.bind (hP.value frame (he e rfl)) fun v =>
      hP.bind (hP.note _) fun _ => hP.agreesWith (hP.compared v value)

end Noting

/-- What a property has to do with what is remembered of switches to go from a body to a switch and its cases. -/
structure Switching (P : Property) (E : Frame → Compiled → Prop := fun _ _ => True) : Prop extends Noting P E where
  switch {U : Given} (frame : Frame) (id : Int) (v : Option (Value × Bool)) : P U Unit (modify (setSwitch frame id v))
  register {U : Given} (frame : Frame) (id : Int) (v : Option (Value × Bool)) (opening : Option Nat) :
    P U Unit (modify (setRegister frame id v opening))
  restoringRegister {U : Given} (frame : Frame) (id : Int) (v : Option (Value × Bool)) (opening : Option Nat)
    {body : Run Unit} : P U Unit body → P U Unit (Run.restoring (setRegister frame id v opening) body)

section Switching

variable (hP : Switching P E) (hbody : Always P body) (frame : Frame) (id : Int)
include hP hbody

theorem Switching.renderSwitch {e : Compiled} (he : E frame e) : Always P (renderSwitch frame id e body) := fun U =>
  hP.bind (hP.evaluateFresh frame he) fun v => hP.bind (hP.noteOpening v) fun _ =>
    hP.bind (hP.activation frame) fun _ => hP.bind (hP.register frame id _ _) fun _ =>
      hP.restoringRegister frame id _ _ (hbody U)

theorem Switching.renderCase {e : Option Compiled} (he : ∀ e' ∈ e, E frame e') :
    Always P (renderCase frame id e body) := by
  refine fun U => hP.bind (hP.activation frame) fun a => ?_
  split
  · exact hP.pure _
  · exact hP.pure _
  · next value _ =>
    refine hP.bind (hP.isChosen frame _ value he) fun chosen => ?_
    split
    · exact hP.bind (hP.note _) fun _ => hP.bind (hP.switch frame id _) fun _ => hbody U
    · exact hP.pure _

end Switching

/-- The property goes from a body to the constructs that render it with the variables as they are. -/
structure Enclosing (P : Property) (E : Frame → Compiled → Prop := fun _ _ => True) : Prop extends Compositional P E where
  capture (named : Option (Assoc Bytes)) {body : Run Unit} :
    Always P body → Always P (Render.capture named body)
  name (name : Bytes) {body : Run Unit} : Always P body → Always P (renderName name body)
  switch (frame : Frame) (id : Int) {e : Compiled} {body : Run Unit} :
    E frame e → Always P body → Always P (renderSwitch frame id e body)
  case (frame : Frame) (id : Int) {e : Option Compiled} {body : Run Unit} :
    (∀ e' ∈ e, E frame e') → Always P body → Always P (renderCase frame id e body)

theorem Enclosing.renderTranslate (hP : Enclosing P E) (hbody : Always P body) (frame : Frame) (msgid : Bytes) :
    Always P (renderTranslate frame msgid body) := by
  intro U
  refine hP.bind (hP.capture (some []) hbody U) fun message => ?_
  obtain ⟨message, named⟩ := message
  dsimp only
  generalize (if msgid.isEmpty then Text.collapse message else msgid) = msgid
  split
  · exact hP.pure _
  · exact hP.bind (hP.translate frame msgid _ _) fun _ => hP.write _

/-- The property goes from the bodies of constructs to the constructs. -/
structure Structural (P : Property) (E : Frame → Compiled → Prop := fun _ _ => True) : Prop extends Enclosing P E where
  binding (name : Bytes) (v : Value) {body : Run Unit} : Always P body → Always P (Render.binding name v body)
  loop (frame : Frame) (names : List Bytes) {e : Compiled} (whitespace : Bytes) {body : Run Unit} :
    E frame e → Always P body → Always P (renderLoop frame names e whitespace body)
  onError {body fallback : Run Unit} :
    Always P body → Always P fallback → Always P (renderOnError body fallback)

/-- The property also goes from a body to the construct that remembers values for it. -/
structure Caching (P : Property) (E : Frame → Compiled → Prop := fun _ _ => True) : Prop extends Structural P E where
  cache (frame : Frame) {exprs : List Compiled} {body : Run Unit} :
    (∀ e ∈ exprs, E frame e) → Always P body → Always P (renderCache frame exprs body)

theorem always_bindingAll (bindings : List (Bytes × Value))
    (hbinding : ∀ b ∈ bindings, ∀ {body : Run Unit}, Always P body → Always P (Render.binding b.1 b.2 body))
    (hbody : Always P body) : Always P (bindingAll bindings body) := by
  induction bindings with
  | nil => exact hbody
  | cons b bs ih =>
    obtain ⟨hb, hbs⟩ := List.forall_mem_cons.1 hbinding
    exact hb (ih hbs)

theorem Compositional.renderDefine_cons (hP : Compositional P E) {frame : Frame} {a : Assignment Compiled}
    {as : List (Assignment Compiled)} (ha : E frame a.expr)
    (hglobal : a.isGlobal → ∀ name ∈ a.names, ∀ v, Always P (setGlobal name v))
    (hrest : a.isGlobal → Always P (renderDefine frame body as))
    (hlocal : a.isGlobal = false → ∀ values, Always P (bindingAll (a.names.zip values) (renderDefine frame body as))) :
    Always P (renderDefine frame body (a :: as)) := by
  intro U
  refine hP.evaluated ha fun v => ?_
  refine hP.bind (hP.unpackAt List.mem_cons_self _) fun values => ?_
  dsimp only
  split
  · next hisGlobal =>
    refine hP.bind ?_ fun _ => hrest hisGlobal _
    have hset : ∀ b ∈ a.names.zip values, Always P (setGlobal b.1 b.2) :=
      fun b hb => hglobal hisGlobal b.1 (List.of_mem_zip hb).1 b.2
    generalize a.names.zip values = bindings at hset
    induction bindings with
    | nil => exact hP.pure _
    | cons b bs ihbs =>
      obtain ⟨hb, hbs⟩ := List.forall_mem_cons.1 hset
      exact hP.bind (hb _) fun _ => ihbs hbs
  · next hisGlobal => exact hlocal (by simpa using hisGlobal) values _

theorem Structural.renderDefine (hP : Structural P E) {frame : Frame} (hbody : Always P body)
    (assignments : List (Assignment Compiled)) (hreads : ∀ a ∈ assignments, E frame a.expr)
    (hglobal : ∀ a ∈ assignments, a.isGlobal → ∀ name ∈ a.names, ∀ v, Always P (setGlobal name v)) :
    Always P (renderDefine frame body assignments) := by
  induction assignments with
  | nil => exact hbody
  | cons a as ih =>
    obtain ⟨ha, has⟩ := List.forall_mem_cons.1 hreads
    obtain ⟨haglobal, hasglobal⟩ := List.forall_mem_cons.1 hglobal
    have hrest : Always P (Render.renderDefine frame body as) := ih has hasglobal
    exact hP.renderDefine_cons ha haglobal (fun _ => hrest) fun _ values =>
      always_bindingAll _ (fun b _ => hP.binding b.1 b.2) hrest

theorem Compositional.iterations (hP : Compositional P E) (hadvance : ∀ loop, Always P (advance loop))
    (hpass : ∀ values, Always P (bindingAll (names.zip values) body)) {U : Given} (e : Compiled)
    (loop : Nat) (whitespace : Bytes) (n : Nat) :
    P U Unit (iterations e names loop whitespace body n) := by
  induction n generalizing U with
  | zero => exact hP.pure _
  | succ n ih =>
    refine hP.bind (hadvance loop U) fun item => ?_
    cases item with
    | none => exact hP.pure _
    | some v =>
      refine hP.noted .delivered ?_
      refine hP.bind (hP.unpackAt List.mem_cons_self names) fun values =>
        hP.bind (hpass values _) fun _ => hP.look (fun st => ?_) fun _ _ _ => rfl
      split
      · exact hP.bind (hP.write whitespace) fun _ => ih
      · exact ih

/-- What a property has to do with the cells of loops to go from passes to the loop. -/
structure Looping (P : Property) (E : Frame → Compiled → Prop := fun _ _ => True) : Prop extends Compositional P E where
  advance (loop : Nat) : Always P (Render.advance loop)
  heap {U : Given} (f : Heap → Heap) : P U Unit (modify (modifyHeap f))
  loopTable {U : Given} : P U Nat Render.loopTable
  restoringHeap {U : Given} (f : Heap → Heap) {body : Run Unit} :
    P U Unit body → P U Unit (Run.restoring (modifyHeap f) body)

theorem Looping.renderLoop (hP : Looping P E) (frame : Frame) {e : Compiled} (he : E frame e)
    (whitespace : Bytes) (hpass : ∀ values, Always P (bindingAll (names.zip values) body)) :
    Always P (renderLoop frame names e whitespace body) := by
  intro U
  refine hP.evaluate frame he fun source => hP.look (fun st => ?_) fun _ _ _ => rfl
  split
  · next f hf => exact hP.misused List.mem_cons_self (.source hf)
  · refine hP.bind (hP.heap _) fun _ => hP.bind hP.loopTable fun table => ?_
    refine hP.look (fun _ => hP.bind (hP.heap _) fun _ => ?_) fun _ _ _ => rfl
    refine hP.look (fun _ => hP.restoringHeap _ ?_) fun _ _ _ => rfl
    exact hP.iterations hP.advance hpass e _ whitespace _

/-! ### The induction over nodes -/

/-- What makes a property hold of rendering all nodes below which only allowed ones stand, in certain frames, where what
is asked of loops, definitions, caches, handlers and calls may depend on the node. -/
structure Guarded (call : Continuation) (Here : Frame → Prop) (P : Property)
    (Allowed : Node Compiled → Prop) (E : Frame → Compiled → Prop := fun _ _ => True) : Prop extends Enclosing P E where
  domain {frame : Frame} (domain : Bytes) : Here frame → Here { frame with domain }
  fill {frame : Frame} {name : Bytes} {fill : Node Compiled × Frame} :
    Here frame → frame.slots.lookup name = some fill → Always P (renderFill call fill)
  reads {n : Node Compiled} {frame : Frame} : Allowed n → Here frame → ∀ e ∈ n.reads, E frame e
  loop {frame : Frame} {names : List Bytes} {e : Compiled} {body : Node Compiled} {whitespace : Bytes} :
    Allowed (.loop names e body whitespace) → Here frame → Always P (Render.node call frame body) →
    Always P (renderLoop frame names e whitespace (Render.node call frame body))
  define {frame : Frame} {assignments : List (Assignment Compiled)} {body : Node Compiled} :
    Allowed (.define assignments body) → Here frame → Always P (Render.node call frame body) →
    Always P (renderDefine frame (Render.node call frame body) assignments)
  cache {frame : Frame} {exprs : List Compiled} {body : Node Compiled} :
    Allowed (.cache exprs body) → Here frame → Always P (Render.node call frame body) →
    Always P (renderCache frame exprs (Render.node call frame body))
  onError {frame : Frame} {body fallback : Node Compiled} :
    Allowed (.onError body fallback) → Here frame →
    Always P (Render.node call frame body) → Always P (Render.node call frame fallback) →
    Always P (renderOnError (Render.node call frame body) (Render.node call frame fallback))
  internal {name : Bytes} {slots : List (Bytes × Node Compiled)} {extend : Bool} :
    Allowed (.useInternal name slots extend) → (∀ m ∈ Node.allOfSlots slots, Allowed m) →
    ∀ frame : Frame, Here frame → ∀ m, Always P (callMacro call frame slots extend m)
  external {e : Compiled} {slots : List (Bytes × Node Compiled)} {extend : Bool} :
    Allowed (.useExternal e slots extend) → (∀ m ∈ Node.allOfSlots slots, Allowed m) →
    ∀ frame : Frame, Here frame → ∀ m, Always P (callMacro call frame slots extend m)

namespace Guarded

variable {call : Continuation} {Here : Frame → Prop} {P : Property}
  {Allowed : Node Compiled → Prop} {E : Frame → Compiled → Prop} (hP : Guarded call Here P Allowed E)
include hP

theorem renderSlot {frame : Frame} (hframe : Here frame) (name : Bytes) {body : Run Unit}
    (hbody : Always P body) : Always P (renderSlot call frame name body) := by
  unfold Render.renderSlot
  split
  · next fill hfill => exact hP.fill hframe hfill
  · exact hbody

mutual

/-- The property holds of rendering a node below which only allowed nodes stand. -/
theorem node : ∀ (n : Node Compiled) (frame : Frame), n.Every Allowed → Here frame → Always P (node call frame n)
  | .absent, _, _, _ => fun _ => hP.pure _
  | .sequence nodes, frame, h, hs => nodeList nodes frame h.below hs
  | .text s, _, _, _ => fun _ => hP.write s
  | .interpolation _ parts, frame, h, hs => fun _ =>
    hP.writeParts frame parts (hP.reads (h.own rfl) hs)
  | .element _ start body stop, frame, h, hs => by
    simp only [Node.Every, Node.all, List.forall_mem_cons, List.forall_mem_append] at h
    obtain ⟨_, ⟨hstart, hbody⟩, hstop⟩ := h
    exact fun U => hP.bind (node start frame hstart hs U) fun _ =>
      hP.bind (node body frame hbody hs U) fun _ => node stop frame hstop hs U
  | .startTag lead name attributes tail, frame, h, hs => fun U =>
    hP.bind (hP.write _) fun _ =>
      hP.bind (nodeList attributes frame h.below hs U) fun _ => hP.write tail
  | .attr a, frame, h, hs => fun _ => hP.renderAttribute frame a (hP.reads (h.own rfl) hs)
  | .attributeMap e exclude, frame, h, hs => fun _ =>
    hP.renderAttributeMap frame (hP.reads (h.own rfl) hs e List.mem_cons_self) exclude
  | .condition test yes no, frame, h, hs => by
    simp only [Node.Every, Node.all, List.forall_mem_cons, List.forall_mem_append] at h
    obtain ⟨htest, hyes, hno⟩ := h
    refine fun U => hP.bind (hP.operand frame test (hP.reads htest hs)) fun v => hP.bind (hP.truth v) fun b => ?_
    split
    · exact node yes frame hyes hs U
    · exact node no frame hno hs U
  | .loop names e body whitespace, frame, h, hs =>
    hP.loop (h.own rfl) hs (node body frame h.below hs)
  | .define assignments body, frame, h, hs =>
    hP.define (h.own rfl) hs (node body frame h.below hs)
  | .cache exprs body, frame, h, hs =>
    hP.cache (h.own rfl) hs (node body frame h.below hs)
  | .content e raw translated, frame, h, hs => fun _ =>
    hP.renderContent frame (hP.reads (h.own rfl) hs e List.mem_cons_self) raw translated
  | .translate msgid body, frame, h, hs =>
    hP.renderTranslate (node body frame h.below hs) frame msgid
  | .name name body, frame, h, hs => hP.name name (node body frame h.below hs)
  | .domain domain body, frame, h, hs =>
    node body { frame with domain } h.below (hP.domain domain hs)
  | .onError body fallback, frame, h, hs => by
    simp only [Node.Every, Node.all, List.forall_mem_cons, List.forall_mem_append] at h
    obtain ⟨honError, hbody, hfallback⟩ := h
    exact hP.onError honError hs (node body frame hbody hs) (node fallback frame hfallback hs)
  | .macroDef _ body, frame, h, hs => node body frame h.below hs
  | .useInternal name slots extend, frame, h, hs => fun U =>
    hP.look (fun _ => hP.internal (h.own rfl) h.below frame hs _ U) fun _ _ _ => rfl
  | .useExternal e slots extend, frame, h, hs => by
    obtain ⟨hcall, hfills⟩ := List.forall_mem_cons.1 h
    refine fun U => hP.evaluate frame (hP.reads hcall hs e List.mem_cons_self) fun v => ?_
    split
    · exact hP.external hcall hfills frame hs v _
    · next hmacro => exact hP.misused List.mem_cons_self (.callee (by simpa using hmacro))
  | .fillSlot _ body, frame, h, hs => node body frame h.below hs
  | .defineSlot name body, frame, h, hs =>
    hP.renderSlot hs name (node body frame h.below hs)
  | .switch id e body, frame, h, hs =>
    hP.switch frame id (hP.reads (h.own rfl) hs e List.mem_cons_self)
      (node body frame h.below hs)
  | .case id e body, frame, h, hs =>
    hP.case frame id (fun e' he => hP.reads (h.own rfl) hs e' (by simpa [Node.reads] using he))
      (node body frame h.below hs)
  | .omitted, _, _, _ => fun _ => hP.pure _
  | .module _ body, frame, h, hs => node body frame h.below hs

theorem nodeList : ∀ (ns : List (Node Compiled)) (frame : Frame),
    (∀ m ∈ Node.allOf ns, Allowed m) → Here frame → Always P (nodeList call frame ns)
  | [], _, _, _ => fun _ => hP.pure _
  | n :: ns, frame, h, hs => by
    simp only [Node.allOf, List.forall_mem_append] at h
    exact fun U => hP.bind (node n frame h.1 hs U) fun _ => nodeList ns frame h.2 hs U

end

end Guarded

/-- A property that goes from bodies to constructs, and holds of fills and of the allowed definitions for the whole
render, caches and calls. -/
theorem Structural.guarded {call : Continuation} {Here : Frame → Prop}
    (hP : Structural P E) (hdomain : ∀ (frame : Frame) (domain : Bytes), Here frame → Here { frame with domain })
    (hfill : ∀ (frame : Frame) (name : Bytes) (fill : Node Compiled × Frame), Here frame →
      frame.slots.lookup name = some fill → Always P (renderFill call fill))
    (hreads : ∀ n frame, Allowed n → Here frame → ∀ e ∈ n.reads, E frame e)
    (hglobal : ∀ assignments body, Allowed (.define assignments body) →
      ∀ a ∈ assignments, a.isGlobal → ∀ name ∈ a.names, ∀ v, Always P (setGlobal name v))
    (hcache : ∀ exprs body frame, Allowed (.cache exprs body) → Here frame → Always P (Render.node call frame body) →
      Always P (renderCache frame exprs (Render.node call frame body)))
    (hinternal : ∀ name slots extend, Allowed (.useInternal name slots extend) → (∀ m ∈ Node.allOfSlots slots, Allowed m) →
      ∀ frame : Frame, Here frame → ∀ m, Always P (callMacro call frame slots extend m))
    (hexternal : ∀ e slots extend, Allowed (.useExternal e slots extend) → (∀ m ∈ Node.allOfSlots slots, Allowed m) →
      ∀ frame : Frame, Here frame → ∀ m, Always P (callMacro call frame slots extend m)) :
    Guarded call Here P Allowed E where
  toEnclosing := hP.toEnclosing
  domain domain hframe := hdomain _ domain hframe
  fill hframe hname := hfill _ _ _ hframe hname
  reads hn hframe := hreads _ _ hn hframe
  loop hn hframe hbody := hP.loop _ _ _ (hreads _ _ hn hframe _ List.mem_cons_self) hbody
  define hn hframe hbody := hP.renderDefine hbody _
    (fun a ha => hreads _ _ hn hframe _ (List.mem_map.2 ⟨a, ha, rfl⟩)) (hglobal _ _ hn)
  cache hn hframe hbody := hcache _ _ _ hn hframe hbody
  onError _ _ hbody hfallback := hP.onError hbody hfallback
  internal hn := hinternal _ _ _ hn
  external hn := hexternal _ _ _ hn

/-- What makes a property hold of rendering all nodes below which only allowed ones stand. -/
structure Closed (call : Continuation) (P : Property) (Allowed : Node Compiled → Prop) : Prop
    extends Caching P where
  fill (fill : Node Compiled × Frame) : Always P (renderFill call fill)
  global {assignments : List (Assignment Compiled)} {body : Node Compiled} :
    Allowed (.define assignments body) → (∃ a ∈ assignments, a.isGlobal) →
    ∀ name v, Always P (setGlobal name v)
  internal {name : Bytes} {slots : List (Bytes × Node Compiled)} {extend : Bool} :
    Allowed (.useInternal name slots extend) →
    ∀ frame m, Always P (callMacro call frame slots extend m)
  external {e : Compiled} {slots : List (Bytes × Node Compiled)} {extend : Bool} :
    Allowed (.useExternal e slots extend) →
    ∀ frame m, Always P (callMacro call frame slots extend m)

/-- The property holds of rendering a node below which only allowed nodes stand. -/
theorem Closed.node {call : Continuation} (hP : Closed call P Allowed)
    (n : Node Compiled) (frame : Frame) (h : ∀ m ∈ n.all, Allowed m) :
    Always P (Render.node call frame n) := by
  have hguarded : Guarded call (fun _ => True) P Allowed :=
    hP.toStructural.guarded (fun _ _ _ => trivial) (fun _ _ fill _ _ => hP.fill fill) (fun _ _ _ _ _ _ => trivial)
      (fun _ _ hn a ha hisGlobal name _ v => hP.global hn ⟨a, ha, hisGlobal⟩ name v)
      (fun _ _ _ _ _ hbody => hP.cache _ (fun _ _ => trivial) hbody)
      (fun _ _ _ hn _ frame _ => hP.internal hn frame) fun _ _ _ hn _ frame _ => hP.external hn frame
  exact hguarded.node n frame h trivial

/-- What makes a property hold of whatever is rendered: it goes from what is called to the call. -/
structure Pervasive (P : Property) : Prop extends Caching P where
  exceeded : Always P (Run.exceeded : Run Unit)
  missing {U : Given} (name message : Bytes) : P U Unit (throw (.lookup name message))
  global (name : Bytes) (v : Value) : Always P (setGlobal name v)
  fill {call : Continuation} (hcall : ∀ frame n, Always P (call frame n)) (fill : Node Compiled × Frame) :
    Always P (renderFill call fill)
  body {call : Continuation} (hcall : ∀ frame n, Always P (call frame n)) (program bound : Nat)
    (body : Node Compiled) (slots : Fills) :
    Always P (renderBody call program bound body slots)
  cooked {U : Given} (id : Nat) {f : World → Nat → Run Unit} : (∀ w program, P U Unit (f w program)) →
    P U Unit (do
      let st ← get
      let (r, world) := st.world.cook id
      set { st with world }
      let program ← liftExcept r
      f world program)
  merging {body : Run Unit} : Always P body → Always P (do
    let vars := (← get).vars
    Run.restoring (fun st => { st with vars := st.remote.mergeInto vars }) body)

namespace Pervasive

variable {P : Property} (hP : Pervasive P) {call : Continuation} (hcall : ∀ frame n, Always P (call frame n))
include hP hcall

theorem renderMacro (slots : Fills) (m : Value) :
    Always P (renderMacro call slots m) := by
  intro U
  unfold Render.renderMacro
  split
  · refine hP.look (fun st => ?_) fun _ _ _ => rfl
    dsimp only
    split
    · exact hP.body hcall _ _ _ slots U
    · exact hP.missing _ _
  · exact hP.look (fun st => hP.body hcall _ _ _ slots U) fun _ _ _ => rfl
  · next id _ =>
    exact hP.cooked (f := fun world program =>
      renderBody call program (world.template id).settings (world.program program).main slots) id
      fun _ _ => hP.body hcall _ _ _ slots U
  · refine hP.bind (hP.write _) fun _ => ?_
    split
    · exact hP.fill hcall _ U
    · exact hP.global _ _ U
  · exact hP.pure _

theorem callMacro (frame : Frame) (fills : List (Bytes × Node Compiled)) (extend : Bool) (m : Value) :
    Always P (callMacro call frame fills extend m) :=
  hP.merging (hP.renderMacro hcall _ m)

theorem closed : Closed call P fun _ => True where
  toCaching := hP.toCaching
  fill := hP.fill hcall
  global _ _ := hP.global
  internal _ frame m := hP.callMacro hcall frame _ _ m
  external _ frame m := hP.callMacro hcall frame _ _ m

omit hcall in
/-- The property holds of rendering anything, however deeply calls are nested. -/
theorem toDepth (depth : Nat) (frame : Frame) (n : Node Compiled) : Always P (toDepth depth frame n) := by
  induction depth generalizing frame n with
  | zero => exact hP.exceeded
  | succ depth ih => exact (hP.closed ih).node n frame fun _ _ => trivial

omit hcall in
theorem node (depth : Nat) (frame : Frame) (n : Node Compiled) :
    Always P (node (Render.toDepth depth) frame n) :=
  (hP.closed (hP.toDepth depth)).node n frame fun _ _ => trivial

end Pervasive

end Render

end PageTemplate
