import PageTemplate.Failure

/-!
The values that templates work on. They come from the host application and are dynamically typed. What a host function
or method does is its `Behaviour`. Objects with identity (cursors, loops, programs and the like) are named by their
number in the store that holds them.
-/

namespace PageTemplate

inductive IntType where
  | int
  | int8
  | int16
  | int32
  | int64
  | uint
  | uint8
  | uint16
  | uint32
  | uint64
  deriving DecidableEq, Repr, Inhabited

namespace IntType

def name : IntType → Bytes
  | int => utf8 "int"
  | int8 => utf8 "int8"
  | int16 => utf8 "int16"
  | int32 => utf8 "int32"
  | int64 => utf8 "int64"
  | uint => utf8 "uint"
  | uint8 => utf8 "uint8"
  | uint16 => utf8 "uint16"
  | uint32 => utf8 "uint32"
  | uint64 => utf8 "uint64"

/-- The number of bits, and whether the type is signed. -/
def shape : IntType → Nat × Bool
  | int => (64, true)
  | int8 => (8, true)
  | int16 => (16, true)
  | int32 => (32, true)
  | int64 => (64, true)
  | uint => (64, false)
  | uint8 => (8, false)
  | uint16 => (16, false)
  | uint32 => (32, false)
  | uint64 => (64, false)

/-- The representative of a number among those of the type, modulo its width. -/
def wrap (t : IntType) (n : Int) : Int :=
  let (bits, signed) := t.shape
  if signed then Int.bmod n (Nat.pow 2 bits) else n % Nat.pow 2 bits

end IntType

inductive ElementType where
  | any
  | int
  | text
  | callable
  deriving DecidableEq, Repr, Inhabited

def ElementType.name : ElementType → Bytes
  | any => utf8 "interface {}"
  | int => utf8 "int"
  | text => utf8 "string"
  | callable => utf8 "runtime.Macro"

inductive KeyType where
  | text
  | int
  | markup
  deriving DecidableEq, Repr, Inhabited

def KeyType.name : KeyType → Bytes
  | text => utf8 "string"
  | int => utf8 "int"
  | markup => utf8 "runtime.Markup"

inductive MapKey where
  | text (s : Bytes)
  | int (n : Int)
  deriving DecidableEq, Repr, Inhabited

/-- The parameter and result types of a function, by name. -/
structure Signature where
  params : List Bytes := []
  results : List Bytes := []
  deriving DecidableEq, Repr, Inhabited

def Signature.typeName (s : Signature) : Bytes :=
  let results :=
    match s.results with
    | [] => []
    | [r] => utf8 " " ++ r
    | rs => utf8 " (" ++ Bytes.join (utf8 ", ") rs ++ utf8 ")"
  utf8 "func(" ++ Bytes.join (utf8 ", ") s.params ++ utf8 ")" ++ results

/-- What a host function or method does. -/
inductive Behaviour where
  /-- Gives a text. -/
  | constant (s : Bytes)
  /-- Gives a text and reports that nothing went wrong. -/
  | checked (s : Bytes)
  | failing (f : Failure)
  /-- Gives nothing. -/
  | silent
  /-- Puts its argument between two texts. -/
  | around (before after : Bytes)
  /-- Joins its two arguments. -/
  | joining (sep : Bytes)
  | counting
  | segment (base missing : Bytes)
  | translating (settings : Nat)
  /-- Any other function of texts. It may go by a number that the host keeps, and change it. -/
  | host (signature : Signature) (call : List Bytes → Nat → Except Failure Bytes × Nat)
  deriving Inhabited

namespace Behaviour

def signature : Behaviour → Signature
  | constant _ => { results := [utf8 "string"] }
  | checked _ => { results := [utf8 "string", utf8 "error"] }
  | failing _ => { results := [utf8 "string", utf8 "error"] }
  | silent => {}
  | around _ _ => { params := [utf8 "string"], results := [utf8 "string"] }
  | joining _ => { params := [utf8 "string", utf8 "string"], results := [utf8 "string"] }
  | counting => { results := [utf8 "int"] }
  | segment _ _ => { params := [utf8 "string"], results := [utf8 "interface {}", utf8 "error"] }
  | translating _ => { params := [utf8 "string"], results := [utf8 "string"] }
  | host signature _ => signature

end Behaviour

structure Method where
  name : Bytes
  behaviour : Behaviour
  /-- Whether the method belongs to pointers to the record only. -/
  onPointer : Bool := false
  deriving Inhabited

/-- The name of a record field, the name under which expressions also know it, and whether it can be
read from outside. -/
structure Field where
  name : Bytes
  tag : Bytes := []
  exported : Bool := true
  deriving DecidableEq, Repr, Inhabited

inductive Value where
  | nil
  | bool (b : Bool)
  | text (s : Bytes)
  /-- Text that is inserted without escaping. -/
  | markup (s : Bytes)
  | int (type : IntType) (n : Int)
  | double (f : Float)
  /-- A single-precision float, held at double precision. -/
  | single (f : Float)
  | complex (re im : Float)
  | bytes (s : Bytes)
  | list (items : List Value)
  | slice (elem : ElementType) (items : List Value)
  | array (items : List Value)
  | map (key : KeyType) (elem : ElementType) (entries : List (MapKey × Value))
  | record (type : Bytes) (fields : List (Field × Value)) (methods : List Method)
  | pointer (target : Value)
  | nullPointer
  /-- A list or map that was never made: it shows as the empty one that it stands for, and counts as nothing. -/
  | absent (empty : Value)
  | function (behaviour : Behaviour)
  /-- A method read off a value without being called. -/
  | method (self : Value) (name : Bytes)
  | failure (f : Failure)
  /-- The marker that keeps what the template has. -/
  | default
  | channel (id : Nat)
  /-- A channel that can only be sent to. -/
  | sink
  | cursor (id : Nat)
  | loop (id : Nat)
  | loops (id : Nat)
  | program (id settings : Nat)
  | namedMacro (program : Nat) (filename name : Bytes)
  | hostMacro (text : Bytes)
  | template (id : Nat) (filename : Bytes)
  | settings (id : Nat)
  | failures (recorded : List (Site × Option Failure))
  deriving Inhabited

namespace Value

def dict (entries : Assoc Value) : Value := .map .text .any (entries.map fun e => (.text e.1, e.2))

def ofInt (n : Int) : Value := .int .int n

def texts (ss : List Bytes) : Value := .slice .text (ss.map .text)

/-- The list of texts that are added one by one: before the first one it has not been made. -/
def collected (ss : List Bytes) : Value := if ss.isEmpty then .absent (.texts []) else .texts ss

def ofKey : KeyType → MapKey → Value
  | .markup, .text s => .markup s
  | _, .text s => .text s
  | _, .int n => .ofInt n

/-- The text and number keys of a map entry by its position in the sorted order. -/
def keyLe : MapKey → MapKey → Bool
  | .int a, .int b => a ≤ b
  | .text a, .text b => Bytes.le a b
  | .int _, .text _ => true
  | .text _, .int _ => false

def entry? (entries : List (MapKey × Value)) (key : MapKey) : Option Value := List.lookup key entries

def failureTypeName : Failure → Bytes
  | .undefined _ => utf8 "*runtime.NameError"
  | .lookup _ _ => utf8 "*runtime.LookupError"
  | .type _ => utf8 "*runtime.TypeError"
  | .value _ => utf8 "*runtime.ValueError"
  | .translation _ _ => utf8 "*runtime.TranslateError"
  | .notFound _ => utf8 "*template.NotFoundError"
  | .plain _ => utf8 "*errors.errorString"
  | .wrapped _ _ => utf8 "*fmt.wrapError"
  | .expression _ => utf8 "*file.Error"
  | .file _ _ _ => utf8 "*fs.PathError"
  | .fault _ _ _ _ => utf8 "*util.ParseError"
  | .located _ _ => utf8 "*runtime.RenderError"
  | .report _ _ => utf8 "*runtime.TemplateError"

def failureMethods : Failure → List (Bytes × Signature)
  | .wrapped _ _ | .located _ _ | .report _ _ | .expression _ | .file _ _ _ =>
    [(utf8 "Error", { results := [utf8 "string"] }), (utf8 "Unwrap", { results := [utf8 "error"] })]
  | .fault _ _ _ _ =>
    [utf8 "ContextualMessage", utf8 "Error", utf8 "String", utf8 "Text"].map (·, { results := [utf8 "string"] }) ++
      [(utf8 "Unwrap", { results := [utf8 "error"] })]
  | _ => [(utf8 "Error", { results := [utf8 "string"] })]

def recordMethods (onPointer : Bool) (methods : List Method) : List (Bytes × Signature) :=
  Assoc.sorted ((methods.filter fun m => onPointer || !m.onPointer).map fun m => (m.name, m.behaviour.signature))

def methods : Value → List (Bytes × Signature)
  | markup _ => [(utf8 "HTML", { results := [utf8 "string"] }), (utf8 "String", { results := [utf8 "string"] })]
  | pointer (markup _) =>
    [(utf8 "HTML", { results := [utf8 "string"] }), (utf8 "String", { results := [utf8 "string"] })]
  | default => [(utf8 "String", { results := [utf8 "string"] })]
  | failure f => failureMethods f
  | record _ _ ms => recordMethods false ms
  | pointer (record _ _ ms) => recordMethods true ms
  | cursor _ =>
    [(utf8 "Next", { results := [utf8 "interface {}", utf8 "bool"] }), (utf8 "Remaining", { results := [utf8 "int"] })]
  | loop _ =>
    [(utf8 "Next", { results := [utf8 "interface {}", utf8 "bool"] }),
      (utf8 "Traverse", { params := [utf8 "string"], results := [utf8 "interface {}", utf8 "error"] })]
  | program _ _ =>
    [(utf8 "Bind", { params := [utf8 "*config.CompilerConfig"], results := [utf8 "*codegen.Program"] }),
      (utf8 "Include", { params := [utf8 "*runtime.Output", utf8 "*runtime.Scope"], results := [utf8 "error"] }),
      (utf8 "Initialize",
        { params := [utf8 "map[string]interface {}"], results := [utf8 "map[string]codegen.EntryPoint"] }),
      (utf8 "MacroNames", { results := [utf8 "[]string"] })]
  | namedMacro _ _ _ =>
    [(utf8 "Include", { params := [utf8 "*runtime.Output", utf8 "*runtime.Scope"], results := [utf8 "error"] }),
      (utf8 "String", { results := [utf8 "string"] })]
  | hostMacro _ =>
    [(utf8 "Include", { params := [utf8 "*runtime.Output", utf8 "*runtime.Scope"], results := [utf8 "error"] })]
  | template _ _ =>
    [(utf8 "Cook", { results := [utf8 "*codegen.Program", utf8 "error"] }),
      (utf8 "Include", { params := [utf8 "*runtime.Output", utf8 "*runtime.Scope"], results := [utf8 "error"] }),
      (utf8 "Invalidate", {}),
      (utf8 "Macros", { results := [utf8 "[]string", utf8 "error"] }),
      (utf8 "Reload", { params := [utf8 "string"] }),
      (utf8 "Render", { params := [utf8 "map[string]interface {}"], results := [utf8 "string", utf8 "error"] }),
      (utf8 "RenderMacro",
        { params := [utf8 "string", utf8 "map[string]interface {}"], results := [utf8 "string", utf8 "error"] }),
      (utf8 "String", { results := [utf8 "string"] })]
  | settings _ => [(utf8 "Fingerprint", { results := [utf8 "string"] })]
  | _ => []

def method? (v : Value) (name : Bytes) : Option Signature := List.lookup name v.methods

def behaviour? (methods : List Method) (name : Bytes) : Option Behaviour :=
  (methods.find? fun m => m.name == name).map (·.behaviour)

def signature? : Value → Option Signature
  | function b => some b.signature
  | method self name => self.method? name
  | _ => none

def typeName : Value → Bytes
  | nil => utf8 "<nil>"
  | bool _ => utf8 "bool"
  | text _ => utf8 "string"
  | markup _ => utf8 "runtime.Markup"
  | int t _ => t.name
  | double _ => utf8 "float64"
  | single _ => utf8 "float32"
  | complex _ _ => utf8 "complex128"
  | bytes _ => utf8 "[]uint8"
  | list _ => utf8 "[]interface {}"
  | slice elem _ => utf8 "[]" ++ elem.name
  | array items => utf8 "[" ++ Bytes.ofNat items.length ++ utf8 "]interface {}"
  | map key elem _ => utf8 "map[" ++ key.name ++ utf8 "]" ++ elem.name
  | record type _ _ => type
  | pointer target => utf8 "*" ++ target.typeName
  | nullPointer => utf8 "*[]interface {}"
  | absent empty => empty.typeName
  | function b => b.signature.typeName
  | method self name => ((self.method? name).getD {}).typeName
  | failure f => failureTypeName f
  | default => utf8 "*runtime.defaultMarker"
  | channel _ => utf8 "chan interface {}"
  | sink => utf8 "chan<- interface {}"
  | cursor _ => utf8 "*runtime.sliceIterator"
  | loop _ => utf8 "*runtime.RepeatItem"
  | loops _ => utf8 "runtime.RepeatDict"
  | program _ _ => utf8 "*codegen.Program"
  | namedMacro _ _ _ => utf8 "*codegen.macroRef"
  | hostMacro _ => utf8 "runtime.MacroFunc"
  | template _ _ => utf8 "*template.Template"
  | settings _ => utf8 "*config.CompilerConfig"
  | failures _ => utf8 "[]*runtime.ErrorInfo"

def textMethod? (v : Value) (name : Bytes) : Option Bytes :=
  match v with
  | markup s | pointer (markup s) =>
    if name == utf8 "HTML" || name == utf8 "String" then some s else none
  | default => if name == utf8 "String" then some (utf8 "<default>") else none
  | failure f => if name == utf8 "Error" then some f.message else none
  | namedMacro _ filename macroName =>
    if name == utf8 "String" then
      some (utf8 "<macro " ++ Text.quote macroName ++ utf8 " of " ++ filename ++ utf8 ">")
    else none
  | template _ filename =>
    if name == utf8 "String" then some (utf8 "<template " ++ filename ++ utf8 ">") else none
  | record _ _ ms | pointer (record _ _ ms) =>
    if (v.method? name).isSome then
      match behaviour? ms name with
      | some (.constant s) => some s
      | _ => none
    else none
  | _ => none

/-- The markup that a value stands for, if it is to be inserted without escaping. -/
def markup? (v : Value) : Option Bytes := v.textMethod? (utf8 "HTML")

def isDefault : Value → Bool
  | default => true
  | _ => false

end Value

end PageTemplate
