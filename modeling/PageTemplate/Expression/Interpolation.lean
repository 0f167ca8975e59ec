import PageTemplate.Failure

/-!
Interpolated texts. `${…}` takes the longest text up to a closing brace that has as many opening as closing
braces and compiles; `$name` and `$a.b` are short forms; `$$` stands for a dollar and `\$` for itself.
The fragments of a text lie one after the other and cover it.
-/

namespace PageTemplate.Expression

/-- A literal or an expression in a text, with the stretch of the text that it was taken from. -/
structure Fragment where
  value : Bytes
  isExpression : Bool
  offset : Nat
  stop : Nat
  deriving DecidableEq, Repr, Inhabited

/-- The texts before each closing brace, shortest first, after what was seen already. -/
def beforeClosings (seen : Bytes) : Bytes → List Bytes
  | [] => []
  | c :: s =>
    if c = Byte.rightBrace then seen.reverse :: beforeClosings (c :: seen) s else beforeClosings (c :: seen) s

def hasEvenBraces (s : Bytes) : Bool := s.count Byte.leftBrace == s.count Byte.rightBrace

/-- The longest name with dots at the beginning of a text, given that a name has begun. -/
def dottedRun : Bytes → Bytes
  | [] => []
  | c :: s =>
    if Byte.isIdentifierPart c then c :: dottedRun s
    else if c = Byte.period && (s.head?.map Byte.isIdentifierStart).getD false then c :: dottedRun s
    else []

def dottedName? (s : Bytes) : Option Bytes :=
  if (s.head?.map Byte.isIdentifierStart).getD false then some (dottedRun s) else none

/-- The literal collected so far, if it is not empty, before further fragments. -/
def flushLiteral (literal : Bytes) (start stop : Nat) (rest : List Fragment) : List Fragment :=
  if literal.isEmpty then rest else ⟨literal.reverse, false, start, stop⟩ :: rest

section

variable {m : Type → Type} [Monad m] [MonadExceptOf Failure m]

def firstCompiling (check : Bytes → m Unit) (failed : Option Failure) : List Bytes → m (Option Bytes)
  | [] =>
    match failed with
    | some f => throw f
    | none => return none
  | c :: cs => do
    let r ← tryCatchThe Failure (do check c; return none) fun f => return some f
    match r with
    | none => return some c
    | some f => firstCompiling check (failed <|> some f) cs

def bracedSource? (check : Bytes → m Unit) (s : Bytes) : m (Option Bytes) :=
  firstCompiling check none (((beforeClosings [] s).reverse).filter hasEvenBraces)

/-- The fragments of a text from an offset on, in at most `fuel` steps. The literal read so far, newest byte
first, began at `start`. -/
def fragmentsFrom (check : Bytes → m Unit) (slashes : Bool) :
    Nat → Nat → Bytes → Nat → Bytes → m (List Fragment)
  | 0, pos, literal, start, _ => return flushLiteral literal start pos []
  | _, pos, literal, start, [] => return flushLiteral literal start pos []
  | fuel + 1, pos, literal, start, c :: s => do
    let start := if literal.isEmpty then pos else start
    let plain := fragmentsFrom check slashes fuel (pos + 1) (c :: literal) start s
    match s with
    | [] => plain
    | d :: s' =>
      if c = Byte.backslash && d = Byte.dollar then
        fragmentsFrom check slashes fuel (pos + 2) (d :: c :: literal) start s'
      else if c ≠ Byte.dollar then plain
      else if d = Byte.dollar then fragmentsFrom check slashes fuel (pos + 2) (d :: literal) start s'
      else if d = Byte.leftBrace then
        match ← bracedSource? check s' with
        | some source =>
          let stop := pos + source.length + 3
          let rest ← fragmentsFrom check slashes fuel stop [] stop (s'.drop (source.length + 1))
          return flushLiteral literal start pos (⟨source, true, pos, stop⟩ :: rest)
        | none => plain
      else
        match dottedName? s with
        | some name =>
          let stop := pos + name.length + 1
          let source := if slashes then name.map fun b => if b = Byte.period then Byte.slash else b else name
          let rest ← fragmentsFrom check slashes fuel stop [] stop (s.drop name.length)
          return flushLiteral literal start pos (⟨source, true, pos, stop⟩ :: rest)
        | none => plain

def fragments (check : Bytes → m Unit) (slashes : Bool) (text : Bytes) : m (List Fragment) :=
  fragmentsFrom check slashes (text.length + 1) 0 [] 0 text

end

end PageTemplate.Expression
