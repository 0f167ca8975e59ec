import PageTemplate.Directive.Clause
import PageTemplate.Expression.Compile
import PageTemplate.Program.Node

/-!
Building template programs from element trees. The directives of an element wrap each other in a fixed
order, whatever the order in which they are written: slot definitions are entered first and a
switch last; macros, the translation domain, named message parts and error handling enclose all of
them.
-/

namespace PageTemplate.Builder

open Markup (Token RawAttribute ElementHead)
open Expression (Registry)

/-- What has been met so far. -/
structure State where
  nextExpr : Nat := 0
  nextSwitch : Nat := 0
  /-- The macros in document order, newest first. -/
  macros : List (Bytes × Node Expr) := []
  /-- The calls of macros of the same template, newest first. -/
  calls : List (Bytes × Token) := []
  /-- The names used in the messages that are open, innermost first. -/
  names : List (List Bytes) := []
  deriving Inhabited

/-- Where an element stands. -/
structure Surrounding where
  registry : Registry
  /-- The open switches, innermost first. -/
  switches : List Nat := []
  /-- Whether a macro call is open. -/
  inCall : Bool := false
  deriving Inhabited

abbrev Build := StateT State (Except Failure)

def expression (r : Registry) (t : Token) : Build Expr := do
  match r.compile t.value with
  | .error f => throw (t.fault .expression (utf8 "Invalid expression") (some f))
  | .ok _ =>
    let id ← modifyGet fun st => (st.nextExpr, { st with nextExpr := st.nextExpr + 1 })
    return { id, source := t.value, token := t }

def fragmentToken (t : Token) (f : Expression.Fragment) : Token :=
  let whole := t.slice f.offset f.stop
  match Bytes.indexOf? f.value whole.value with
  | some i => whole.slice i (i + f.value.length)
  | none => { whole with value := f.value }

def parts (r : Registry) (t : Token) : Build (List (Part Expr)) := do
  match r.fragments t.value with
  | .error f => throw (t.fault .expression (utf8 "Invalid interpolation") (some f))
  | .ok fs =>
    fs.mapM fun f =>
      if f.isExpression then return .expr (← expression r (fragmentToken t f)) else return .literal f.value

def literalText? : List (Part Expr) → Option Bytes
  | [] => some []
  | .literal s :: ps => (literalText? ps).map (s ++ ·)
  | .expr _ :: _ => none

def characterData (r : Registry) (t : Token) : Build (Node Expr) := do
  if !t.value.contains Byte.dollar then return .text t.value
  else
    let ps ← parts r t
    match literalText? ps with
    | some s => return .text s
    | none => return .interpolation t.value ps

/-- A text node: comments that begin with a bang are left out, and only text and comments are interpolated. -/
def textNode (r : Registry) (t : Token) : Build (Node Expr) :=
  match t.kind with
  | .comment => if (utf8 "<!--!").isPrefixOf t.value then return .omitted else characterData r t
  | .text => characterData r t
  | _ => return .text t.value

/-- The indentation that ends a text: what follows its last line break, with the break, if that is blank. -/
def indentation (t : Token) : Bytes :=
  if t.kind = .text && t.value.contains Byte.newline then
    let last := Bytes.lastLine t.value
    if Text.isBlankText last then Byte.newline :: last else []
  else []

/-- A written attribute as one whose value is known. -/
def literalAttribute (a : RawAttribute) : DynamicAttribute Expr :=
  let attr : DynamicAttribute Expr :=
    { name := a.name.value, value := .literal a.value.value, space := a.space, eq := a.eq, quote := a.quote }
  if a.hasValue then attr else { attr with eq := [Byte.equals], quote := [Byte.doubleQuote] }

def writtenAttribute (r : Registry) (a : RawAttribute) : Build (Node Expr) := do
  if !a.hasValue || !a.value.value.contains Byte.dollar then return .text a.text
  else
    let ps ← parts r a.value
    match literalText? ps with
    | some s => return .attr { literalAttribute a with value := .literal s }
    | none =>
      return .attr
        { name := a.name.value, value := .interpolated a.value.value ps, space := a.space, eq := a.eq
          quote := a.quote, boolean := Markup.isBooleanAttribute a.name.value }

/-- An attribute of a start tag that is being put together. -/
structure AttributeSlot where
  name : Bytes
  raw : Option RawAttribute := none
  node : Node Expr
  deriving Inhabited

def updateSlot? (name : Bytes) (f : AttributeSlot → AttributeSlot) : List AttributeSlot → Option (List AttributeSlot)
  | [] => none
  | s :: ss => if Text.equalFold s.name name then some (f s :: ss) else (updateSlot? name f ss).map (s :: ·)

def addDynamic (slots : List AttributeSlot) (name : Bytes) (e : Expr) : List AttributeSlot :=
  let attr : DynamicAttribute Expr := { name, value := .expr e, boolean := Markup.isBooleanAttribute name }
  let replace (s : AttributeSlot) : AttributeSlot :=
    let attr := { attr with name := s.name, space := (s.raw.map (·.space)).getD [] }
    let attr :=
      match s.raw with
      | some raw =>
        if raw.hasValue then { attr with eq := raw.eq, quote := raw.quote, written := some raw.value.value } else attr
      | none => attr
    { s with node := .attr attr }
  (updateSlot? name replace slots).getD (slots ++ [{ name, node := .attr attr }])

def addTranslated (slots : List AttributeSlot) (name msgid : Bytes) : List AttributeSlot :=
  let mark (a : DynamicAttribute Expr) : Node Expr := .attr { a with translate := true, msgid }
  let translate (s : AttributeSlot) : AttributeSlot :=
    match s.node, s.raw with
    | .attr a, _ => { s with node := mark a }
    | _, some raw => { s with node := mark (literalAttribute raw) }
    | _, none => s
  (updateSlot? name translate slots).getD (slots ++ [{ name, node := mark { name, value := .literal [] } }])

/-- The entries of dynamic attributes put into the slots, and the expressions that give many attributes. -/
def placeEntries (r : Registry) :
    List Clause.AttributeEntry → List AttributeSlot → List Expr → Build (List AttributeSlot × List Expr)
  | [], slots, maps => return (slots, maps)
  | entry :: entries, slots, maps => do
    let e ← expression r entry.expr
    match entry.name with
    | none => placeEntries r entries slots (maps ++ [e])
    | some name => placeEntries r entries (addDynamic slots name e) maps

def dynamicSlots (r : Registry) (ds : Directives) (slots : List AttributeSlot) :
    Build (List AttributeSlot × List Expr) :=
  match ds.clause? .attributes with
  | some t => do placeEntries r (← Clause.attributes t) slots []
  | none => return (slots, [])

/-- The slots with those marked that an element asks to be translated. -/
def translatedSlots (ds : Directives) (slots : List AttributeSlot) : Build (List AttributeSlot) :=
  match ds.clause? .translatedAttributes with
  | some t => do
    let entries ← (Clause.translatedAttributes t : Except Failure _)
    return entries.foldl (fun ss e => addTranslated ss e.1 e.2) slots
  | none => return slots

/-- The attributes of a start tag: the written ones in their order, then new ones, then those that come from
maps. -/
def attributes (r : Registry) (ds : Directives) (written : List RawAttribute) : Build (List (Node Expr)) := do
  let slots ← written.mapM fun a =>
    return { name := a.name.value, raw := some a, node := ← writtenAttribute r a : AttributeSlot }
  let (slots, maps) ← dynamicSlots r ds slots
  let slots ← translatedSlots ds slots
  let exclude := slots.map fun s => Text.lower s.name
  return slots.map (·.node) ++ maps.map fun e => .attributeMap e exclude

def endTag (name : Bytes) : Node Expr := .text (utf8 "</" ++ name ++ utf8 ">")

def tagsWith (head : ElementHead) (stop : Option Markup.Tag) (attributes : List (Node Expr)) (forceEnd : Bool) :
    Node Expr × Node Expr :=
  let start (tail : Bytes) : Node Expr := .startTag head.start.opening head.name attributes tail
  match stop with
  | some tag => (start head.start.ending, .text tag.text)
  | none =>
    if head.isSelfClosing && forceEnd then (start (utf8 ">"), endTag head.name)
    else (start head.start.ending, .absent)

def tags (r : Registry) (head : ElementHead) (stop : Option Markup.Tag) (ds : Directives)
    (written : List RawAttribute) (forceEnd : Bool) : Build (Node Expr × Node Expr) := do
  if Markup.Namespace.isDirective head.key.space then return (.absent, .absent)
  else return tagsWith head stop (← attributes r ds written) forceEnd

/-- The value of an expression, or what the template has if it is the default marker. The expression is
evaluated once. -/
def substitute (r : Registry) (t : Token) (kept : Node Expr) (translate : Bool) : Build (Node Expr) := do
  let (t, raw) := Clause.substitution t
  let e ← expression r t
  return .cache [e] (.condition (.isDefault e) kept (.content e raw translate))

def message (ds : Directives) (children : Node Expr) : Node Expr :=
  match ds.clause? .translate with
  | some t => .translate (Text.trim t.value) children
  | none => children

/-- What stands between the tags of an element: its children or a value in their place. -/
def content (r : Registry) (ds : Directives) (children : Node Expr) : Build (Node Expr) :=
  match ds.clause? .content with
  | some t => substitute r t (message ds children) (ds.has .translate)
  | none => return message ds children

/-- An element with its tags, which may be left out. -/
def tagged (r : Registry) (ds : Directives) (name : Bytes) (start body stop : Node Expr) : Build (Node Expr) :=
  match ds.clause? .omitTag with
  | some t =>
    if !start.isPresent then return .element name start body stop
    else if (Text.trim t.value).isEmpty then return .element name .absent body .absent
    else do
      let e ← expression r t.trim
      let unlessOmitted (n : Node Expr) : Node Expr :=
        if n.isPresent then .condition (.not (.expr e)) n .absent else .absent
      return .cache [e] (.element name (unlessOmitted start) body (unlessOmitted stop))
  | none => return .element name start body stop

/-- The tags of an element around what stands between them. -/
def enclose (r : Registry) (head : ElementHead) (stop : Option Markup.Tag) (ds : Directives)
    (written : List RawAttribute) (forceEnd : Bool) (body : Node Expr) : Build (Node Expr) := do
  let (start, stop) ← tags r head stop ds written forceEnd
  tagged r ds head.name start body stop

/-- An element, or a value in its place. -/
def replaced (r : Registry) (ds : Directives) (node : Node Expr) : Build (Node Expr) :=
  match ds.clause? .replace with
  | some t => substitute r t node (ds.has .translate)
  | none => return node

/-- The tags and the content of an element that calls no macro. -/
def element (r : Registry) (head : ElementHead) (stop : Option Markup.Tag) (ds : Directives)
    (written : List RawAttribute) (children : Node Expr) : Build (Node Expr) := do
  let body ← content r ds children
  let node ← enclose r head stop ds written (ds.has .content) body
  replaced r ds node

def macroCall (r : Registry) (t : Token) (extend : Bool) (slots : List (Bytes × Node Expr)) : Build (Node Expr) := do
  let t := t.trim
  match Clause.internalMacro? t.value with
  | some name =>
    modify fun st => { st with calls := (name, t) :: st.calls }
    return .useInternal name slots extend
  | none => return .useExternal (← expression r t) slots extend

/-- What an element shows when rendering it fails: its written tags around a value. -/
def fallback (r : Registry) (head : ElementHead) (stop : Option Markup.Tag) (written : List RawAttribute)
    (t : Token) : Build (Node Expr) := do
  let (t, raw) := Clause.substitution t
  let e ← expression r t
  let body : Node Expr := .content e raw false
  if Markup.Namespace.isDirective head.key.space then return body
  else
    let (start, stop) := tagsWith head stop (written.map fun a => .text a.text) true
    return .element head.name start body stop

def wrapping (ds : Directives) (d : Directive) (node : Node Expr)
    (f : Token → Node Expr → Build (Node Expr)) : Build (Node Expr) :=
  match ds.clause? d with
  | some t => f t node
  | none => return node

def defineMacro (t : Token) (node : Node Expr) : Build (Node Expr) := do
  let name := Text.trim t.value
  if name.isEmpty then throw (t.fault .language (utf8 "Empty macro name"))
  if ((← get).macros.map (·.1)).contains name then
    throw (t.fault .compilation (utf8 "Duplicate macro name " ++ Text.quote name))
  modify fun st => { st with macros := (name, node) :: st.macros }
  return .macroDef name node

/-- An element inside the directives that control how it is rendered, the first of which ends up innermost. -/
def controlled (r : Registry) (ds : Directives) (whitespace : Bytes) (caseSwitch switchId : Nat) (node : Node Expr) :
    Build (Node Expr) := do
  let node ← wrapping ds .switch node fun t n => return .switch switchId (← expression r t.trim) n
  let node ← wrapping ds .loop node fun t n => do
    let (names, source) ← Clause.iteration t
    return .loop names (← expression r source) n whitespace
  let node ← wrapping ds .condition node fun t n =>
    return .condition (.expr (← expression r t.trim)) n .absent
  let node ← wrapping ds .case node fun t n => return .case caseSwitch (some (← expression r t.trim)) n
  let node ← wrapping ds .define node fun t n => do
    let definitions ← Clause.definitions t
    let assignments ← definitions.mapM fun d =>
      return { names := d.names, expr := ← expression r d.expr, isGlobal := d.isGlobal : Assignment Expr }
    return .define assignments n
  let node ← wrapping ds .defineSlot node fun t n => return .defineSlot (Text.trim t.value) n
  wrapping ds .fillSlot node fun t n => return .fillSlot (Text.trim t.value) n

/-- An element inside the directives that enclose all others. -/
def enclosed (r : Registry) (head : ElementHead) (stop : Option Markup.Tag) (ds : Directives)
    (written : List RawAttribute) (node : Node Expr) : Build (Node Expr) := do
  let node ← wrapping ds .domain node fun t n => return .domain (Text.trim t.value) n
  let node ← wrapping ds .name node fun t n => return .name (Text.trim t.value) n
  wrapping ds .onError node fun t n => return .onError n (← fallback r head stop written t)

/-- The content of an element inside its control directives. -/
def wrap (r : Registry) (head : ElementHead) (stop : Option Markup.Tag) (ds : Directives)
    (written : List RawAttribute) (whitespace : Bytes) (caseSwitch switchId : Nat) (node : Node Expr) :
    Build (Node Expr) := do
  let node ← controlled r ds whitespace caseSwitch switchId node
  let node ← wrapping ds .defineMacro node defineMacro
  enclosed r head stop ds written node

/-- Notes the name of a part of the innermost open message, which must be new there. -/
def noteName (t : Token) : Build Unit := do
  let name := Text.trim t.value
  match (← get).names with
  | [] => return
  | ns :: rest =>
    if ns.contains name then throw (t.fault .translation (utf8 "Duplicate i18n:name " ++ Text.quote name))
    modify fun st => { st with names := (name :: ns) :: rest }

/-- Notes the name that an element has in the message around it. -/
def notePart (ds : Directives) : Build Unit :=
  match ds.clause? .name with
  | some t => noteName t
  | none => return

def openMessage (ds : Directives) : Build Unit :=
  modify fun st => if ds.has .translate then { st with names := [] :: st.names } else st

def closeMessage (ds : Directives) : Build Unit :=
  modify fun st => if ds.has .translate then { st with names := st.names.tail } else st

def caseSwitch (s : Surrounding) (ds : Directives) : Build Nat :=
  match ds.clause? .case, s.switches with
  | some t, [] => throw (t.fault .language (utf8 "tal:case outside of a tal:switch"))
  | some _, id :: _ => return id
  | none, _ => return 0

/-- The number that the switch on an element has, or would have. -/
def openSwitch (ds : Directives) : Build Nat :=
  modifyGet fun st =>
    (st.nextSwitch, if ds.has .switch then { st with nextSwitch := st.nextSwitch + 1 } else st)

/-- A slot can be filled in a macro call only. -/
def checkFill (s : Surrounding) (ds : Directives) : Build Unit :=
  match ds.clause? .fillSlot with
  | some t =>
    if s.inCall then return else throw (t.fault .compilation (utf8 "metal:fill-slot outside of a macro call"))
  | none => return

/-- The macro that an element calls, and whether it extends it. -/
def call? (ds : Directives) : Option (Token × Bool) :=
  match ds.clause? .extendMacro, ds.clause? .useMacro with
  | some t, _ => some (t, true)
  | none, some t => some (t, false)
  | none, none => none

/-- Where the children of an element stand. -/
def inside (s : Surrounding) (ds : Directives) (switchId : Nat) : Surrounding :=
  { s with
    switches := if ds.has .switch then switchId :: s.switches else s.switches
    inCall := s.inCall || (call? ds).isSome }

def elementOrCall (r : Registry) (head : ElementHead) (stop : Option Markup.Tag) (ds : Directives)
    (written : List RawAttribute) (children : List (Node Expr)) : Build (Node Expr) :=
  match call? ds with
  | some (t, extend) => macroCall r t extend (Node.fillsOf children)
  | none => element r head stop ds written (.sequence children)

mutual

/-- The program of a list of nodes. Before an element stands the indentation that ends the text before it. -/
def nodes (s : Surrounding) : Bytes → List Markup.Node → Build (List (Node Expr))
  | _, [] => return []
  | whitespace, n :: ns => do
    let (result, whitespace) ← node s whitespace n
    return result :: (← nodes s whitespace ns)

/-- The program of a node, and the indentation that it leaves for the next. -/
def node (s : Surrounding) (whitespace : Bytes) : Markup.Node → Build (Node Expr × Bytes)
  | .text t => do return (← textNode s.registry t, indentation t)
  | .element head children stop => do
    let r := s.registry
    let (ds, written) ← Directives.classify head.attributes []
    ds.checkExclusions (Markup.Namespace.isDirective head.key.space)
    let caseSwitch ← caseSwitch s ds
    let switchId ← openSwitch ds
    checkFill s ds
    notePart ds
    openMessage ds
    let body ← nodes (inside s ds switchId) [] children
    let content ← elementOrCall r head stop ds written body
    let result ← wrap r head stop ds written whitespace caseSwitch switchId content
    closeMessage ds
    return (result, [])

end

def build (r : Registry) (filename source : Bytes) (tree : List Markup.Node) : Except Failure Module := do
  let (body, st) ← (nodes { registry := r } [] tree).run {}
  let macros := st.macros.reverse
  for (name, t) in st.calls.reverse do
    if !(macros.map (·.1)).contains name then
      throw (t.fault .compilation (utf8 "Macro " ++ Text.quote name ++ utf8 " not found"))
  return { filename, source, body := .sequence body, macros }

end PageTemplate.Builder
