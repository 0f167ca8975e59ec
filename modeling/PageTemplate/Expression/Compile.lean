import PageTemplate.Expression.Evaluator
import PageTemplate.Expression.Interpolation
import PageTemplate.Expression.Parser
import PageTemplate.Expression.Pipe
import PageTemplate.Expression.Plan.Fusion
import PageTemplate.Expression.Typing

/-!
Compiling expressions. The source of an expression may name its type before a colon; each registered type says how the
rest is compiled. Sources of piped types are cut into alternatives first. Compiling is defined over the monad that
remembers the results.
-/

namespace PageTemplate.Expression

/-- How the source of an expression of some type is compiled. -/
inductive Method where
  /-- A term of the expression language. -/
  | term
  /-- A variable and path segments. -/
  | path
  | text
  | negation
  | presence
  /-- The name of a value registered for import. -/
  | importing
  | markup
  /-- The name of another template, as seen from the template of this number. -/
  | load (template : Nat)
  /-- A method supplied by the host. -/
  | host (compile : Bytes → Except Failure Evaluator)
  deriving Inhabited

structure ExpressionType where
  method : Method
  /-- Whether sources are cut into alternatives at pipes. -/
  piped : Bool := false
  deriving Inhabited

/-- What a source that is a term comes to. -/
def Term.evaluator? (source : Bytes) : Option Evaluator := do
  let t ← Term.ofSource source
  let p ← t.plan?
  return .term source t.freeNames p.settled

/-- The types of expressions, and what compiling them refers to. -/
structure Registry where
  types : Assoc ExpressionType
  /-- The type of sources that name none. -/
  defaultType : Bytes
  imports : Assoc Value := []
  /-- The expression language: what it makes of a source that is not blank, if it accepts it. -/
  terms : Bytes → Option Evaluator := Term.evaluator?
  deriving Inhabited

def builtinTypes : Assoc ExpressionType :=
  [(utf8 "expr", ⟨.term, true⟩), (utf8 "path", ⟨.path, true⟩), (utf8 "string", ⟨.text, false⟩),
    (utf8 "not", ⟨.negation, false⟩), (utf8 "exists", ⟨.presence, false⟩), (utf8 "import", ⟨.importing, false⟩),
    (utf8 "structure", ⟨.markup, false⟩)]

namespace Registry

def initial (defaultType : Bytes) (imports : Assoc Value) : Registry := { types := builtinTypes, defaultType, imports }

def register (r : Registry) (name : Bytes) (t : ExpressionType) : Registry :=
  { r with types := r.types.insert name t }

/-- Whether a byte may stand in the name of a type after its first letter. -/
def isTypeByte (b : UInt8) : Bool :=
  Byte.isLetter b || Byte.isDigit b || b == Byte.underscore || b == Byte.period || b == Byte.minus

/-- The name before a colon at the beginning of a source, and what follows the colon. -/
def typeName? (source : Bytes) : Option (Bytes × Bytes) :=
  let s := source.dropWhile Byte.isBlank
  if (s.head?.map Byte.isLetter).getD false then
    match s.dropWhile isTypeByte with
    | c :: rest => if c = Byte.colon then some (s.takeWhile isTypeByte, rest) else none
    | [] => none
  else none

def splitType (r : Registry) (source : Bytes) : Bytes × Bytes × Bool :=
  match typeName? source with
  | some (name, rest) => if r.types.contains name then (name, rest, true) else (r.defaultType, source, false)
  | none => (r.defaultType, source, false)

end Registry

def compileTerm (terms : Bytes → Option Evaluator) (source : Bytes) : Except Failure Evaluator :=
  let source := Text.trim source
  if source.isEmpty then .error (.plain (utf8 "empty expression"))
  else
    match terms source with
    | some e => .ok e
    | none => .error (.expression none)

def isSegment (s : Bytes) : Bool :=
  !s.isEmpty && !s.any fun b => (utf8 " \t\n()+*").contains b

def compilePath (source : Bytes) : Except Failure Evaluator :=
  let source := Text.trim source
  if source.isEmpty then .error (.plain (utf8 "empty path"))
  else
    match Bytes.splitAt Byte.slash source with
    | head :: segments =>
      if Bytes.isIdentifier head && segments.all isSegment then .ok (.path head segments)
      else .error (.plain (utf8 "invalid path " ++ Text.quote source))
    | [] => .error (.plain (utf8 "invalid path " ++ Text.quote source))

def unknownType (name : Bytes) : Failure := .plain (utf8 "unknown expression type " ++ Text.quote name)

def tooDeep : Failure := .plain (utf8 "expression nested too deeply")

section

variable {m : Type → Type} [Monad m] [MonadExceptOf Failure m]

/-- The alternatives that a list of segments compiles to. A segment after the first may name a type of
its own; one that is not piped takes all the rest. -/
def compileAlternatives (r : Registry) (compile : ExpressionType → Bytes → m Evaluator) :
    Nat → Option ExpressionType → List Bytes → m (List Evaluator)
  | 0, _, _ => return []
  | _, _, [] => return []
  | fuel + 1, first, seg :: segs => do
    let further (t : ExpressionType) (body : Bytes) : m (List Evaluator) := do
      let (e, rest) ← compileFewest (compile t) body segs
      return e :: (← compileAlternatives r compile fuel none rest)
    match first with
    | some t => further t seg
    | none =>
      let (name, body, named) := r.splitType seg
      match r.types.get? name with
      | none => throw (unknownType name)
      | some t =>
        if named && !t.piped then return [← compile t (joinPipes (body :: segs))] else further t body

def ofAlternatives : List Evaluator → Evaluator
  | [e] => e
  | es => .alternatives es

mutual

def compileSource (r : Registry) (memo : Bytes → m Evaluator → m Evaluator) : Nat → Bytes → m Evaluator
  | 0, _ => throw tooDeep
  | fuel + 1, source =>
    memo source (let (name, body, _) := r.splitType source; compileAs r memo fuel name body)

/-- The expression that a source of the named type compiles to. -/
def compileAs (r : Registry) (memo : Bytes → m Evaluator → m Evaluator) : Nat → Bytes → Bytes → m Evaluator
  | 0, _, _ => throw tooDeep
  | fuel + 1, name, source =>
    match r.types.get? name with
    | none => throw (unknownType name)
    | some t =>
      if t.piped then do
        let segments := splitPipes source
        return ofAlternatives
          (← compileAlternatives r (compileWith r memo fuel) (segments.length + 1) (some t) segments)
      else compileWith r memo fuel t source

/-- The expression that a source of a type compiles to, as a whole. -/
def compileWith (r : Registry) (memo : Bytes → m Evaluator → m Evaluator) :
    Nat → ExpressionType → Bytes → m Evaluator
  | 0, _, _ => throw tooDeep
  | fuel + 1, t, source => do
    match t.method with
    | .term => MonadExcept.ofExcept (compileTerm r.terms source)
    | .path => MonadExcept.ofExcept (compilePath source)
    | .text =>
      let compile := compileSource r memo fuel
      let fs ← fragments (fun s => do let _ ← compile s) (r.defaultType == utf8 "path") source
      let parts ← fs.mapM fun f => if f.isExpression then compile f.value else return .constant (.text f.value)
      return .concat parts
    | .negation => return .negated (← compileSource r memo fuel source)
    | .presence => return .present (← compileSource r memo fuel source)
    | .markup => return .asMarkup (← compileSource r memo fuel source)
    | .importing =>
      let name := Text.trim source
      match r.imports.get? name with
      | some v => return .constant v
      | none => throw (.plain (utf8 "no import registered as " ++ Text.quote name))
    | .load template =>
      let name := Text.trim source
      if name.isEmpty then throw (.plain (utf8 "empty template name"))
      else return .load template name
    | .host compile => MonadExcept.ofExcept (compile source)

end

def fuelFor (source : Bytes) : Nat := 3 * source.length + 6

end

namespace Registry

def compile (r : Registry) (source : Bytes) : Except Failure Evaluator :=
  compileSource r (fun _ e => e) (fuelFor source) source

def fragments (r : Registry) (text : Bytes) : Except Failure (List Fragment) :=
  Expression.fragments (fun s => do let _ ← r.compile s) (r.defaultType == utf8 "path") text

end Registry

end PageTemplate.Expression
