import PageTemplate.Render.Operand

/-!
Rendering. A node is rendered by recursion on its structure; the bodies of macros and of fills for slots
are rendered through a continuation, and the whole is tied together by recursion on the depth of such
calls. Whatever a node binds for its body is restored afterwards, also when the body fails.
-/

namespace PageTemplate.Render

/-- How the body of a macro or the fill for a slot is rendered in a frame. -/
abbrev Continuation := Frame → Node Compiled → Run Unit

/-- Renders the fill for a slot, which leaves no variables behind. -/
def renderFill (call : Continuation) (fill : Node Compiled × Frame) : Run Unit := do
  let st ← get
  set { st with named := none }
  Run.restoring (fun st' => { st' with vars := st.vars, named := st.named }) (call fill.2 fill.1)

def renderBody (call : Continuation) (program bound : Nat) (body : Node Compiled)
    (slots : List (Bytes × Node Compiled × Frame)) : Run Unit := do
  let st ← get
  let settings := st.remote.settings?.getD bound
  let depth := st.activations.length
  set { st with
    vars := st.vars.insert (utf8 "macros") ((st.world.program program).macroTable program)
    named := none
    activations := st.activations ++ [default] }
  let domain := (st.world.settingsOf settings).domain
  Run.restoring (fun st' => { st' with named := st.named, activations := st'.activations.take depth })
    (call { program, settings, activation := depth, domain, slots } body)

def hostSlot : Bytes := utf8 "s"

def hostVariable : Bytes := utf8 "from_macro"

def renderMacro (call : Continuation) (slots : List (Bytes × Node Compiled × Frame)) : Value → Run Unit
  | .namedMacro program _ name => do
    let p := (← get).world.program program
    match p.body? name with
    | some body => renderBody call program p.settings body slots
    | none => throw (.lookup name (utf8 "macro " ++ Text.quote name ++ utf8 " not found"))
  | .program program bound => do
    renderBody call program bound ((← get).world.program program).main slots
  | .template id _ => do
    let st ← get
    let (r, world) := st.world.cook id
    set { st with world }
    let program ← liftExcept r
    renderBody call program (world.template id).settings (world.program program).main slots
  | .hostMacro text => do
    write text
    match slots.lookup hostSlot with
    | some fill => renderFill call fill
    | none => setGlobal hostVariable (.text text)
  | _ => return

def isMacro : Value → Bool
  | .namedMacro _ _ _ | .program _ _ | .template _ _ | .hostMacro _ => true
  | _ => false

/-- Calls a macro from a frame. The macro works on a copy of the variables; what it defines for the whole render
is taken over afterwards. An extending call passes on the fills that it was itself given. -/
def callMacro (call : Continuation) (frame : Frame) (fills : List (Bytes × Node Compiled)) (extend : Bool)
    (m : Value) : Run Unit := do
  let own : Assoc (Node Compiled × Frame) := Assoc.ofEntries (fills.map fun s => (s.1, s.2, frame))
  let slots := if extend then Assoc.insertAll own frame.slots else own
  let vars := (← get).vars
  Run.restoring (fun st => { st with vars := st.remote.mergeInto vars }) (renderMacro call slots m)

def unpackAt (e : Compiled) (names : List Bytes) (v : Value) : Run (List Value) :=
  if names.length > 1 then
    match unpack v names.length with
    | .ok vs => return vs
    | .error f => failAt e f
  else return [v]

def advance (loop : Nat) : Run (Option Value) :=
  modifyGet fun st =>
    let (v, heap) := st.world.heap.advance loop
    (v, { st with world := { st.world with heap } })

/-- Renders the body once for each item, at most `n` times, with the whitespace in between. -/
def iterations (e : Compiled) (names : List Bytes) (loop : Nat) (whitespace : Bytes) (body : Run Unit) :
    Nat → Run Unit
  | 0 => return
  | n + 1 => do
    match ← advance loop with
    | none => return
    | some v =>
      note (.delivered e v)
      bindingAll (names.zip (← unpackAt e names v)) body
      if !((← get).world.heap.loop loop).atEnd then write whitespace
      iterations e names loop whitespace body n

def loopTable : Run Nat := do
  let st ← get
  match st.vars.get? Expression.loopsName with
  | some (.loops id) => return id
  | _ =>
    let (id, heap) := st.world.heap.newTable
    set { st with
      world := { st.world with heap }
      vars := st.vars.insert Expression.loopsName (.loops id) }
    return id

def modifyHeap (f : Heap → Heap) (st : State) : State := { st with world := { st.world with heap := f st.world.heap } }

def renderLoop (frame : Frame) (names : List Bytes) (e : Compiled) (whitespace : Bytes) (body : Run Unit) :
    Run Unit := do
  let source ← evaluate frame e
  match (← get).world.heap.iterate (names.length > 1) source with
  | .error f => failAt e f
  | .ok (cursor, heap) =>
    let (loop, heap) := heap.newLoop cursor
    modify (modifyHeap fun _ => heap)
    let table ← loopTable
    let name := names.headD []
    let previous := ((← get).world.heap.table table).get? name
    modify (modifyHeap fun h => h.setTableEntry table name (some loop))
    let count := ((← get).world.heap.cursor cursor).remaining
    Run.restoring (modifyHeap fun h => h.setTableEntry table name previous)
      (iterations e names loop whitespace body (count + 1))

def renderDefine (frame : Frame) (body : Run Unit) : List (Assignment Compiled) → Run Unit
  | [] => body
  | a :: as => do
    let values ← unpackAt a.expr a.names (← evaluateFresh frame a.expr)
    let bindings := a.names.zip values
    if a.isGlobal then
      bindings.forM fun b => setGlobal b.1 b.2
      renderDefine frame body as
    else bindingAll bindings (renderDefine frame body as)

/-- Evaluates expressions and remembers their values. The result tells what was remembered before, up to the
expression that failed, if one did. -/
def cacheValues (frame : Frame) : List Compiled → Run (List (Option Value) × Option Failure)
  | [] => return ([], none)
  | e :: es => do
    match ← Run.attempt (evaluateFresh frame e) with
    | .error f => return ((e :: es).map fun _ => none, some f)
    | .ok v =>
      let previous := (← activation frame).cache.lookup e.id
      modify (setCached frame e.id (some v))
      let (rest, failed) ← cacheValues frame es
      return (previous :: rest, failed)

def renderCache (frame : Frame) (exprs : List Compiled) (body : Run Unit) : Run Unit := do
  let (previous, failed) ← cacheValues frame exprs
  let restore (st : State) : State :=
    (exprs.zip previous).foldl (fun st p => setCached frame p.1.id p.2 st) st
  Run.restoring restore
    (match failed with
    | some f => throw f
    | none => body)

/-! Content, messages, handlers and switches. -/

def renderContent (frame : Frame) (e : Compiled) (raw translated : Bool) : Run Unit := do
  let v ← evaluate frame e
  if isBlank v then return
  else
    let v ← if translated then translateValue frame [] v else pure v
    let shown ← resolved v
    write (if raw then shown.toText else shown.toContent)

/-- Renders the body to a text of its own. While it lasts, named parts are collected in the given message. -/
def capture (named : Option (Assoc Bytes)) (body : Run Unit) : Run (Bytes × Option (Assoc Bytes)) := do
  let outer ← get
  set { outer with out := {}, named }
  let r ← Run.attempt body
  let inner ← get
  set { inner with out := outer.out, named := outer.named }
  liftExcept r
  return (inner.out.text, inner.named)

def renderTranslate (frame : Frame) (msgid : Bytes) (body : Run Unit) : Run Unit := do
  let (message, named) ← capture (some []) body
  let text := Text.collapse message
  let msgid := if msgid.isEmpty then text else msgid
  if msgid.isEmpty then return else write (← translate frame msgid (named.getD []) text)

def renderName (name : Bytes) (body : Run Unit) : Run Unit := do
  match (← get).named with
  | none => body
  | some mapping =>
    let (text, _) ← capture none body
    modify fun st => { st with named := some (mapping.insert name text) }
    write (placeholder name)

def renderOnError (body fallback : Run Unit) : Run Unit := do
  let before ← get
  match ← Run.attempt body with
  | .ok () => return
  | .error f =>
    modify fun st => { st with
      out := st.out.truncate before.out.mark
      remote := st.remote.truncateErrors before.remote.errors.length }
    let cause :=
      match f with
      | .located _ cause => cause
      | f => f
    binding (utf8 "error") (.failure cause) fallback

def noteOpening (v : Value) : Run Nat := do
  let opening := (← get).events.length
  note (.opened opening v)
  return opening

/-- What an activation remembers of a switch is set. -/
def setRegister (frame : Frame) (id : Int) (v : Option (Value × Bool)) (opening : Option Nat) (st : State) : State :=
  setOpening frame id opening (setSwitch frame id v st)

def renderSwitch (frame : Frame) (id : Int) (e : Compiled) (body : Run Unit) : Run Unit := do
  let v ← evaluateFresh frame e
  let opening ← noteOpening v
  let a ← activation frame
  modify (setRegister frame id (some (v, false)) (some opening))
  Run.restoring (setRegister frame id (a.switches.lookup id) (a.openings.lookup id)) body

def agreesWith (value v : Value) : Run Bool := do
  if v.isDefault then return true
  else
    modify fun st => { st with world := st.world.noteCompared v value }
    return v.agrees value

/-- Whether a case is to be rendered, given the value of its switch. One without an expression always is. -/
def isChosen (frame : Frame) (opening : Nat) (value : Value) : Option Compiled → Run Bool
  | none => return true
  | some e => do
    note (.weighed opening e)
    let v ← evaluate frame e
    note (.judged opening v)
    agreesWith value v

def renderCase (frame : Frame) (id : Int) (e : Option Compiled) (body : Run Unit) : Run Unit := do
  let a ← activation frame
  match a.switches.lookup id with
  | none | some (_, true) => return
  | some (value, false) =>
    let opening := (a.openings.lookup id).getD 0
    if ← isChosen frame opening value e then
      note (.chosen opening)
      modify (setSwitch frame id (some (value, true)))
      body
    else return

def renderSlot (call : Continuation) (frame : Frame) (name : Bytes) (body : Run Unit) : Run Unit :=
  match frame.slots.lookup name with
  | some fill => renderFill call fill
  | none => body

mutual

def node (call : Continuation) (frame : Frame) : Node Compiled → Run Unit
  | .absent => return
  | .sequence nodes => nodeList call frame nodes
  | .text s => write s
  | .interpolation _ parts => writeParts frame parts
  | .element _ start body stop => do
    node call frame start
    node call frame body
    node call frame stop
  | .startTag lead name attributes tail => do
    write (lead ++ name)
    nodeList call frame attributes
    write tail
  | .attr a => renderAttribute frame a
  | .attributeMap e exclude => renderAttributeMap frame e exclude
  | .condition test yes no => do
    if ← truth (← operand frame test) then node call frame yes else node call frame no
  | .loop names e body whitespace => renderLoop frame names e whitespace (node call frame body)
  | .define assignments body => renderDefine frame (node call frame body) assignments
  | .cache exprs body => renderCache frame exprs (node call frame body)
  | .content e raw translated => renderContent frame e raw translated
  | .translate msgid body => renderTranslate frame msgid (node call frame body)
  | .name name body => renderName name (node call frame body)
  | .domain domain body => node call { frame with domain } body
  | .onError body fallback => renderOnError (node call frame body) (node call frame fallback)
  | .macroDef _ body => node call frame body
  | .useInternal name slots extend => do
    let p := (← get).world.program frame.program
    callMacro call frame slots extend (.namedMacro frame.program p.filename name)
  | .useExternal e slots extend => do
    let v ← evaluate frame e
    if isMacro v then callMacro call frame slots extend v
    else failAt e (.type (v.typeName ++ utf8 " is not a macro"))
  | .fillSlot _ body => node call frame body
  | .defineSlot name body => renderSlot call frame name (node call frame body)
  | .switch id e body => renderSwitch frame id e (node call frame body)
  | .case id e body => renderCase frame id e (node call frame body)
  | .omitted => return
  | .module _ body => node call frame body

def nodeList (call : Continuation) (frame : Frame) : List (Node Compiled) → Run Unit
  | [] => return
  | n :: ns => do
    node call frame n
    nodeList call frame ns

end

/-- Renders a node with calls nested at most to a depth. -/
def toDepth : Nat → Continuation
  | 0, _, _ => Run.exceeded
  | n + 1, frame, body => node (toDepth n) frame body

/-- Binds the names that every template can use, unless they are bound already. -/
def bindDefaults (program bound : Nat) (builtins : Assoc Value) : Run Unit := do
  let st ← get
  let settings := st.remote.settings?.getD bound
  let s := st.world.settingsOf settings
  let (table, heap) := st.world.heap.newTable
  let defaults : Assoc Value := s.builtins ++ builtins ++
    [(utf8 "default", .default), (utf8 "nothing", .nil), (Expression.loopsName, .loops table),
      (utf8 "template", .program program bound), (utf8 "target_language", .text s.language),
      (utf8 "translate", .function (.translating settings))]
  set { st with
    world := { st.world with heap }
    vars := defaults.foldl (fun (vars : Vars) (d : Bytes × Value) => vars.setDefault d.1 d.2) st.vars }

def renderEntry (call : Continuation) (program bound : Nat) (name : Bytes) (builtins : Assoc Value) : Run Unit := do
  modify fun st =>
    { st with remote := if st.remote.contains Remote.settingsKey then st.remote
                        else st.remote.insert Remote.settingsKey (.settings bound) }
  bindDefaults program bound builtins
  let p := (← get).world.program program
  if name.isEmpty then renderBody call program bound p.main []
  else
    match p.body? name with
    | some body => renderBody call program bound body []
    | none => throw (.lookup name (utf8 "macro " ++ Text.quote name ++ utf8 " not found"))

end PageTemplate.Render
