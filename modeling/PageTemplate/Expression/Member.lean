import PageTemplate.Template
import PageTemplate.Value.Text

/-!
Members of values. An expression reads a member by the exact name of a method or field, a key or an index; a path
segment does not distinguish upper and lower case in names and calls methods without parameters. What methods do may
change the world.
-/

namespace PageTemplate.Expression

/-- Computations on the objects of the world. -/
abbrev Act := StateM World

/-- What a function gives: nothing at all, or a value or a failure. -/
abbrev Outcome := Option (Except Failure Value)

namespace Outcome

def value (v : Value) : Act Outcome := return some (.ok v)

def text (s : Bytes) : Act Outcome := value (.text s)

end Outcome

/-- What a host function does with its arguments. -/
def runBehaviour (b : Behaviour) (args : List Bytes) : Act Outcome :=
  match b, args with
  | .constant s, _ | .checked s, _ => Outcome.text s
  | .failing f, _ => return some (.error f)
  | .around before after, [s] => Outcome.text (before ++ s ++ after)
  | .joining sep, [s, t] => Outcome.text (s ++ sep ++ t)
  | .counting, _ => do
    let n : Nat ← modifyGet fun w => (w.heap.calls + 1, { w with heap := w.heap.withCalls (w.heap.calls + 1) })
    Outcome.value (.ofInt n)
  | .segment base missing, [s] =>
    if s = missing then return some (.error (.lookup s [])) else Outcome.text (base ++ Byte.slash :: s)
  | .translating settings, [s] => do
    let text ← modifyGet fun w =>
      let set := w.settingsOf settings
      w.translate settings { msgid := s, domain := set.domain, language := set.language, fallback := s }
    Outcome.text text
  | .host _ call, args => do
    let r ← modifyGet fun w =>
      let answer := call args w.heap.calls
      (answer.1, { w with heap := w.heap.withCalls answer.2 })
    return some (r.map .text)
  | _, _ => return none

def unwrapped : Failure → Value
  | .wrapped _ cause | .located _ cause | .report _ cause | .expression (some cause)
  | .fault _ _ _ (some cause) => .failure cause
  | .file _ _ reason => .failure (.plain reason)
  | _ => .nil

def runFailureMethod (f : Failure) (name : Bytes) : Act Outcome :=
  if name = utf8 "Unwrap" then Outcome.value (unwrapped f)
  else
    match f with
    | .fault _ span summary _ =>
      if name = utf8 "ContextualMessage" then Outcome.text (Failure.contextualMessage span summary)
      else if name = utf8 "Text" then Outcome.text (spanText span)
      else Outcome.text f.message
    | f => Outcome.text f.message

def attempt (run : World → Except Failure Value × World) : Act Outcome := do
  let r ← modifyGet run
  return some r

def runTemplateMethod (id : Nat) (filename name : Bytes) (args : List Bytes) : Act Outcome :=
  if name = utf8 "String" then Outcome.text (((Value.template id filename).textMethod? name).getD [])
  else if name = utf8 "Cook" then attempt fun w => World.programValue (w.cook id)
  else if name = utf8 "Macros" then
    attempt fun w =>
      let (names, w) := w.macroNames id
      (names.map Value.collected, w)
  else do
    if name = utf8 "Invalidate" then modify fun w => w.invalidate id
    if name = utf8 "Reload" then modify fun w => w.reload id (args.headD [])
    return none

/-- What the next item of a cursor is, where nothing stands for the end. -/
def nextItem (step : Heap → Option Value × Heap) : Act Outcome := do
  let v ← modifyGet fun w =>
    let (v, heap) := step w.heap
    (v, { w with heap })
  Outcome.value (v.getD .nil)

def runMethod (self : Value) (name : Bytes) (args : List Bytes) : Act Outcome :=
  match self with
  | .record _ _ methods | .pointer (.record _ _ methods) =>
    match Value.behaviour? methods name with
    | some b => runBehaviour b args
    | none => return none
  | .failure f => runFailureMethod f name
  | .cursor id =>
    if name = utf8 "Next" then nextItem (·.nextOf id)
    else do Outcome.value (.ofInt ((← get).heap.cursor id).remaining)
  | .loop id =>
    if name = utf8 "Next" then nextItem (·.advance id)
    else do return some (((← get).heap.loop id).describe (args.headD []))
  | .program id _ => do Outcome.value (.collected ((← get).program id).macroNames)
  | .template id filename => runTemplateMethod id filename name args
  | .settings id => do Outcome.text ((← get).fingerprint id)
  | v => Outcome.text ((v.textMethod? name).getD [])

def textArgument? : Value → Option Bytes
  | .text s => some s
  | .nil => some []
  | _ => none

def exceedsWithNil (params : Nat) (args : List Value) : Bool := (args.drop params).any fun
  | .nil => true
  | _ => false

def textArguments? (sig : Signature) (args : List Value) : Option (List Bytes) :=
  if sig.params.length = args.length && sig.params.all (· == utf8 "string") then args.mapM textArgument? else none

def invoke (callee : Value) (texts : List Bytes) : Act Outcome :=
  match callee with
  | .function b => runBehaviour b texts
  | .method self name => runMethod self name texts
  | _ => return none

/-- The value that a function gives; one that gives nothing cannot be used. -/
def Outcome.result : Outcome → Except Mishap Value
  | none => .error .missing
  | some (.ok v) => .ok v
  | some (.error f) => .error (.raised f)

def callFunction (callee : Value) (args : List Value) : Act (Except Mishap Value) :=
  match callee.signature? with
  | none => return .error .unclassified
  | some sig =>
    if exceedsWithNil sig.params.length args then return .error .missing
    else
      match textArguments? sig args with
      | none => return .error .unclassified
      | some texts => do return (← invoke callee texts).result

/-! Fields, entries and elements. -/

def openField (name : String) (v : Value) (tag : String := "") : Field × Value :=
  ({ name := utf8 name, tag := utf8 tag }, v)

def hiddenField (name : String) (v : Value := .nil) : Field × Value := ({ name := utf8 name, exported := false }, v)

def causeValue : Option Failure → Value
  | some f => .failure f
  | none => .nil

def failureFields : Failure → List (Field × Value)
  | .undefined name | .notFound name => [openField "Name" (.text name)]
  | .lookup key message => [openField "Key" (.text key), openField "Msg" (.text message)]
  | .type message | .value message => [openField "Msg" (.text message)]
  | .translation msgid reason => [openField "MsgID" (.text msgid), openField "Value" (.text reason)]
  | .plain message => [hiddenField "s" (.text message)]
  | .wrapped context cause =>
    [hiddenField "msg" (.text (Failure.wrapped context cause).message), hiddenField "err" (.failure cause)]
  | .expression cause => [openField "Message" (.text unspecifiedWording), openField "Prev" (causeValue cause)]
  | .file operation path reason =>
    [openField "Op" (.text operation), openField "Path" (.text path), openField "Err" (.failure (.plain reason))]
  | .fault _ _ summary related => [openField "Msg" (.text summary), openField "RelatedError" (causeValue related)]
  | .located _ cause => [openField "Err" (.failure cause)]
  | .report text cause => [openField "Diagnostic" (.text text), openField "Err" (.failure cause)]

def settingsFields (s : Settings) : List (Field × Value) :=
  [openField "DefaultExpression" (.text s.expressionType), openField "Debug" (.bool s.debug),
    openField "BooleanAttributes" (.bool s.booleanAttributes), openField "TargetLanguage" (.text s.language),
    openField "Domain" (.text s.domain), openField "Imports" (.dict s.imports),
    openField "Builtins" (.dict s.builtins)]

/-- The fields of a value that has any. Two programs are never the same as records, since they hold functions;
templates and the programs of macros are told apart by their numbers. -/
def fieldsOf? (w : World) : Value → Option (List (Field × Value))
  | .record _ fields _ => some fields
  | .loop id =>
    let l := w.heap.loop id
    some (l.fields ++ [hiddenField "iterator" (w.heap.resolve (.cursor l.cursor))])
  | .cursor id =>
    let c := w.heap.cursor id
    some [hiddenField "items" (.list c.items), hiddenField "pos" (.ofInt c.position)]
  | .program id _ =>
    let p := w.program id
    some [openField "Filename" (.text p.filename), openField "Source" (.text p.source),
      openField "Macros" (p.macroTable id) "macros", hiddenField "config", hiddenField "main" (.function .silent),
      hiddenField "bodies", hiddenField "macroNames", hiddenField "entryNames"]
  | .template id filename =>
    let t := w.template id
    some [openField "Name" (.text t.name), openField "Filename" (.text t.filename), hiddenField "cfg",
      hiddenField "cache", hiddenField "loader", hiddenField "engine" (.template id filename), hiddenField "mu",
      hiddenField "source", hiddenField "program"]
  | .namedMacro program _ name => some [hiddenField "program" (.program program 0), hiddenField "name" (.text name)]
  | .failure f => some (failureFields f)
  | .settings id => some (settingsFields (w.settingsOf id))
  | .default => some []
  | _ => none

def pointee (w : World) : Value → Value
  | .pointer v => pointee w v
  | .nullPointer => .nil
  | .record type fields methods => .record type fields methods
  | v =>
    match fieldsOf? w v with
    | some fields => .record (v.typeName.drop 1) fields []
    | none => v

def findField? (fields : List (Field × Value)) (name : Bytes) : Option (Field × Value) :=
  fields.find? fun f => f.1.name == name || (!f.1.tag.isEmpty && f.1.tag == name)

def entriesOf? (w : World) : Value → Option (KeyType × ElementType × List (MapKey × Value))
  | .map key elem entries => some (key, elem, entries)
  | .loops id => some (.text, .any, (w.heap.table id).map fun e => (.text e.1, .loop e.2))
  | .absent empty => entriesOf? w empty
  | _ => none

def elementsOf? : Value → Option (List Value)
  | .list vs | .slice _ vs | .array vs => some vs
  | .text s | .markup s | .bytes s => some (byteValues s)
  | .absent empty => elementsOf? empty
  | _ => none

def elementAt? (vs : List Value) (i : Int) : Option Value :=
  let i := if i < 0 then i + vs.length else i
  if i < 0 then none else vs[i.toNat]?

def zeroOf : ElementType → Value
  | .int => .ofInt 0
  | .text => .text []
  | .any | .callable => .nil

def fetchEntry (lenient : Bool) (base key : Value) (keyType : KeyType) (elem : ElementType)
    (entries : List (MapKey × Value)) : Except Mishap Value :=
  match toKey? keyType key with
  | none => .error .unclassified
  | some k =>
    match Value.entry? entries k with
    | some v => .ok v
    | none =>
      if lenient then
        match base with
        | .pointer _ => .ok (.absent (.map keyType elem []))
        | _ => .ok (zeroOf elem)
      else .error (.raised (.lookup key.display (utf8 "no such key: " ++ key.display)))

def fetchElement (vs : List Value) (key : Value) : Except Mishap Value :=
  match toIndex? key with
  | none => .error .mismatch
  | some i =>
    match elementAt? vs i with
    | some v => .ok v
    | none => .error .missing

/-- The field that a key names, which must be one that can be read. -/
def fetchField (fields : List (Field × Value)) (key : Value) : Except Mishap Value :=
  match key with
  | .text name =>
    match findField? fields name with
    | some (field, v) => if field.exported then .ok v else .error .unclassified
    | none => .error .missing
  | _ => .error .mismatch

def methodNamed? (base key : Value) : Option Bytes :=
  match key with
  | .text name => if (base.method? name).isSome then some name else none
  | _ => none

/-- The member of a value under a key: a method, or an entry, an element or a field of what it leads to. Where it is
lenient, a missing entry of a map gives nothing. -/
def fetch (w : World) (lenient : Bool) (base key : Value) : Except Mishap Value :=
  match methodNamed? base key with
  | some name => .ok (.method base name)
  | none =>
    let v := target base
    match entriesOf? w v, elementsOf? v, fieldsOf? w v with
    | some (keyType, elem, entries), _, _ => fetchEntry lenient base key keyType elem entries
    | none, some vs, _ => fetchElement vs key
    | none, none, some fields => fetchField fields key
    | none, none, none => .error .missing

/-- The number that a text is written as, if it fits into 64 bits. -/
def readIndex? (s : Bytes) : Option Int :=
  let (negative, digits) :=
    match s with
    | c :: rest => if c = Byte.minus then (true, rest) else if c = Byte.plus then (false, rest) else (false, s)
    | [] => (false, s)
  if digits.isEmpty || !digits.all Byte.isDigit then none
  else
    let n : Nat := digits.foldl (fun n b => 10 * n + (b - Byte.zero).toNat) 0
    let i : Int := if negative then -n else n
    if -0x8000000000000000 ≤ i && i < 0x8000000000000000 then some i else none

def unresolved (name message : Bytes) : Except Failure Value := .error (.lookup name message)

def traverseEntry (key : KeyType) (entries : List (MapKey × Value)) (name : Bytes) : Except Failure Value :=
  match key with
  | .int => unresolved name []
  | _ =>
    match Value.entry? entries (.text name) with
    | some v => .ok v
    | none => unresolved name (utf8 "key " ++ Text.quote name ++ utf8 " not found")

def traverseElement (vs : List Value) (name : Bytes) : Except Failure Value :=
  match readIndex? name with
  | none => unresolved name (utf8 "invalid index " ++ Text.quote name)
  | some i =>
    match elementAt? vs i with
    | some v => .ok v
    | none =>
      let i := if i < 0 then i + vs.length else i
      unresolved name (utf8 "index " ++ Bytes.ofInt i ++ utf8 " out of range")

def noAttribute (whole : Value) (name : Bytes) : Except Failure Value :=
  unresolved name (whole.typeName ++ utf8 " has no attribute " ++ Text.quote name)

def traverseField (whole : Value) (fields : List (Field × Value)) (name : Bytes) : Except Failure Value :=
  match fields.filter fun f => Text.equalFold f.1.name name with
  | [(field, v)] => if field.exported then .ok v else noAttribute whole name
  | _ => noAttribute whole name

/-- What a path segment leads to among the entries, elements or fields of a value. -/
def traverseParts (w : World) (whole : Value) (name : Bytes) : Except Failure Value :=
  let v := target whole
  match entriesOf? w v, elementsOf? v, fieldsOf? w v with
  | some (key, _, entries), _, _ => traverseEntry key entries name
  | none, some vs, _ => traverseElement vs name
  | none, none, some fields => traverseField whole fields name
  | none, none, none => noAttribute whole name

/-- What a method that resolves path segments by itself gives. -/
def ownTraversal? (w : World) (v : Value) (name : Bytes) : Option (Except Failure Value) :=
  match v with
  | .loop id => some ((w.heap.loop id).describe name)
  | .record _ _ methods | .pointer (.record _ _ methods) =>
    if (v.method? (utf8 "Traverse")).isSome then
      match Value.behaviour? methods (utf8 "Traverse") with
      | some (.segment base missing) =>
        some (if name = missing then .error (.lookup name []) else .ok (.text (base ++ Byte.slash :: name)))
      | _ => none
    else none
  | _ => none

def leadsNowhere (v : Value) : Bool :=
  match v, target v with
  | .nil, _ | _, .nullPointer => true
  | _, _ => false

/-- What a path segment leads to. -/
def traverse (v : Value) (name : Bytes) : Act (Except Failure Value) := do
  let w ← get
  match ownTraversal? w v name, v.methods.find? fun m => Text.equalFold m.1 name with
  | some r, _ => return r
  | none, some (method, sig) =>
    if !sig.params.isEmpty then return .ok (.method v method)
    else return (← runMethod v method []).getD (.ok .nil)
  | none, none =>
    if leadsNowhere v then return unresolved name (utf8 "cannot resolve " ++ Text.quote name ++ utf8 " on nil")
    else return traverseParts w v name

end PageTemplate.Expression
