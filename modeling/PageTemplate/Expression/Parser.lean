import PageTemplate.Decimal.Layout
import PageTemplate.Expression.Lexeme
import PageTemplate.Expression.Term

/-!
Reading terms from lexemes. Binary operators bind by precedence; comparisons chain, so that `a < b < c` means
`a < b && b < c`; an unparenthesised `??` does not mix with other operators to its right. Every
reading function spends fuel, of which `Term.ofSource` provides enough for the number of lexemes.
-/

namespace PageTemplate.Expression

/-- A reader of lexemes: what it reads and what is left, or nothing when the lexemes do not fit. -/
abbrev Reader := StateT (List Lexeme) Option

/-- The binary operators with their precedence. -/
def binaryOps : List (Bytes × Nat × BinaryOp) :=
  [(utf8 "or", 10, .or), (utf8 "||", 10, .or), (utf8 "and", 15, .and), (utf8 "&&", 15, .and), (utf8 "==", 20, .eq),
    (utf8 "!=", 20, .ne), (utf8 "<", 20, .lt), (utf8 ">", 20, .gt), (utf8 "<=", 20, .le), (utf8 ">=", 20, .ge),
    (utf8 "in", 20, .mem), (utf8 "contains", 20, .contains), (utf8 "startsWith", 20, .startsWith),
    (utf8 "endsWith", 20, .endsWith), (utf8 "..", 25, .range), (utf8 "+", 30, .add), (utf8 "-", 30, .sub),
    (utf8 "*", 60, .mul), (utf8 "/", 60, .div), (utf8 "%", 60, .mod), (utf8 "**", 100, .pow), (utf8 "^", 100, .pow),
    (utf8 "??", 500, .coalesce)]

def binaryOp? (symbol : Bytes) : Option (Nat × BinaryOp) := List.lookup symbol binaryOps

def unaryOp? (symbol : Bytes) : Option (Nat × UnaryOp) :=
  List.lookup symbol
    [(utf8 "not", 50, .not), (utf8 "!", 50, .not), (utf8 "-", 90, .negate), (utf8 "+", 90, .plus)]

namespace BinaryOp

def negatable : BinaryOp → Bool
  | mem | contains | startsWith | endsWith => true
  | _ => false

def chains : BinaryOp → Bool
  | lt | gt | le | ge => true
  | _ => false

end BinaryOp

def symbol (s : String) : Lexeme := .op (utf8 s)

namespace Reader

def peek? : Reader (Option Lexeme) := return (← get).head?

def next (l : Lexeme) : Reader Bool := return (← peek?) = some l

def accept (l : Lexeme) : Reader Bool := do
  if ← next l then
    modify List.tail
    return true
  else return false

def acceptWhen (allowed : Bool) (l : Lexeme) : Reader Bool := if allowed then accept l else return false

def expect (l : Lexeme) : Reader Unit := do
  unless ← accept l do failure

def word : Reader Bytes := do
  match ← get with
  | .name n :: rest =>
    set rest
    return n
  | _ => failure

end Reader

def readInteger? (base : Nat) (digits : Bytes) : Option Term :=
  if digits.isEmpty then none
  else do
    let n ← digits.foldlM (fun n b => ((Byte.hexValue? b).filter (· < base)).map (base * n + ·)) 0
    if n < 0x8000000000000000 then some (.int n) else none

def readNumber? (s : Bytes) : Option Term :=
  let s := (s.filter (· ≠ Byte.underscore)).map fun b => if Byte.upperA ≤ b && b ≤ Byte.upperZ then b + 32 else b
  if (utf8 "0x").isPrefixOf s then readInteger? 16 (s.drop 2)
  else if (utf8 "0b").isPrefixOf s then readInteger? 2 (s.drop 2)
  else if (utf8 "0o").isPrefixOf s then readInteger? 8 (s.drop 2)
  else if s.any fun b => b == Byte.period || b == 101 then
    ((Decimal.readUnsigned? s).map (Decimal.toDouble false)).bind fun f =>
      if Decimal.isInf f then none else some (.float f)
  else readInteger? 10 s

/-- Whether an operator may be read as the name of a member: it must look like a name. -/
def isWord : Bytes → Bool
  | [] => false
  | c :: cs => (Byte.isIdentifierStart c || c = Byte.dollar) && cs.all fun b => Byte.isIdentifierPart b || b = Byte.dollar

/-- The name of a member, which may also be a word that is an operator elsewhere. -/
def memberName : Reader Bytes := do
  match ← get with
  | .name n :: rest =>
    set rest
    return n
  | .op w :: rest =>
    if isWord w then
      set rest
      return w
    else failure
  | _ => failure

/-- How many predicates a function of the language takes after the list it runs over. -/
inductive PredicateUse where
  | required
  | optional
  deriving DecidableEq, Repr

def Builtin.predicate? : Builtin → Option PredicateUse
  | map | filter | all | any => some .required
  | count => some .optional
  | _ => none

open Reader

mutual

/-- Terms separated by semicolons, of which the last gives the value. -/
def readSequence : Nat → Bool → Reader Term
  | 0, _ => failure
  | fuel + 1, inside => do
    let t ← readTerm fuel 0 inside
    match ← readFurther fuel inside with
    | [] => return t
    | ts => return .sequence (t :: ts)

def readFurther : Nat → Bool → Reader (List Term)
  | 0, _ => failure
  | fuel + 1, inside => do
    if ← accept (symbol ";") then
      if (← get).isEmpty then return []
      else
        let t ← readTerm fuel 0 inside
        return t :: (← readFurther fuel inside)
    else return []

/-- A term whose operators bind at least as strongly as a precedence. Inside a predicate the element can
be named. -/
def readTerm : Nat → Nat → Bool → Reader Term
  | 0, _, _ => failure
  | fuel + 1, precedence, inside => do
    if ← acceptWhen (precedence = 0) (symbol "let") then
      let n ← word
      expect (symbol "=")
      let value ← readTerm fuel 0 inside
      expect (symbol ";")
      return .binding n value (← readSequence fuel inside)
    else if ← acceptWhen (precedence = 0) (symbol "if") then
      let test ← readTerm fuel 0 inside
      let yes ← readBlock fuel inside
      expect (symbol "else")
      return .conditional test yes (← readBlock fuel inside)
    else
      let left ← readPrimary fuel inside
      let t ← readOperators fuel precedence inside none left
      if precedence = 0 then readConditionals fuel inside t else return t

def readBlock : Nat → Bool → Reader Term
  | 0, _ => failure
  | fuel + 1, inside => do
    expect (.bracket '\x7b')
    let t ← readSequence fuel inside
    expect (.bracket '\x7d')
    return t

def readOperators : Nat → Nat → Bool → Option BinaryOp → Term → Reader Term
  | 0, _, _, _, _ => failure
  | fuel + 1, precedence, inside, prior, left => do
    match ← get with
    | .op s :: rest =>
      if s = [Byte.pipe] then
        if precedence = 0 then
          set rest
          let n ← word
          readOperators fuel precedence inside none (← readCall fuel inside n [left])
        else return left
      else if s = utf8 "not" then
        match rest with
        | .op w :: rest' =>
          match binaryOp? w with
          | some (p, op) =>
            if !op.negatable then failure
            else if p < precedence then return left
            else if prior = some .coalesce then failure
            else
              set rest'
              let right ← readTerm fuel (p + 1) inside
              readOperators fuel precedence inside (some op) (.unary .not (.binary op left right))
          | none => failure
        | _ => failure
      else
        match binaryOp? s with
        | some (p, op) =>
          if p < precedence then return left
          else if prior = some .coalesce && op ≠ .coalesce then failure
          else
            set rest
            if op.chains then
              readOperators fuel precedence inside (some op) (← readComparisons fuel p inside none op left)
            else
              let right ← readTerm fuel (if op = .pow then p else p + 1) inside
              readOperators fuel precedence inside (some op) (.binary op left right)
        | none => return left
    | _ => return left

/-- A chain of comparisons, each with the operand before it. -/
def readComparisons : Nat → Nat → Bool → Option Term → BinaryOp → Term → Reader Term
  | 0, _, _, _, _, _ => failure
  | fuel + 1, precedence, inside, before, op, left => do
    let right ← readTerm fuel (precedence + 1) inside
    let test := Term.binary op left right
    let all :=
      match before with
      | some b => .binary .and b test
      | none => test
    match ← get with
    | .op s :: rest =>
      match binaryOp? s with
      | some (_, next) =>
        if next.chains then
          set rest
          readComparisons fuel precedence inside (some all) next right
        else return all
      | none => return all
    | _ => return all

/-- The alternatives that follow a test. -/
def readConditionals : Nat → Bool → Term → Reader Term
  | 0, _, _ => failure
  | fuel + 1, inside, t => do
    if ← accept (symbol "?") then
      if ← accept (symbol ":") then
        let no ← readTerm fuel 0 inside
        readConditionals fuel inside (.conditional t t no)
      else
        let yes ← readTerm fuel 0 inside
        expect (symbol ":")
        let no ← readTerm fuel 0 inside
        readConditionals fuel inside (.conditional t yes no)
    else return t

def readPrimary : Nat → Bool → Reader Term
  | 0, _ => failure
  | fuel + 1, inside => do
    match ← get with
    | .op s :: rest =>
      match unaryOp? s with
      | some (p, op) =>
        set rest
        let t ← readTerm fuel p inside
        readPostfix fuel inside (.unary op t)
      | none =>
        if inside && s = [Byte.hash] then
          set rest
          readPostfix fuel inside .element
        else if inside && s = [Byte.period] then readPostfix fuel inside .element
        else if s = utf8 "::" then
          set rest
          let n ← word
          readPostfix fuel inside (← readCall fuel inside n [])
        else failure
    | .bracket '(' :: rest =>
      set rest
      let t ← readSequence fuel inside
      expect (.bracket ')')
      readPostfix fuel inside t
    | .name n :: rest =>
      set rest
      if n = utf8 "true" then return .bool true
      else if n = utf8 "false" then return .bool false
      else if n = utf8 "nil" then return .nil
      else if ← next (.bracket '(') then readPostfix fuel inside (← readCall fuel inside n [])
      else readPostfix fuel inside (.name n)
    | .number digits :: rest =>
      set rest
      match readNumber? digits with
      | some t => return t
      | none => failure
    | .text s :: rest =>
      set rest
      readPostfix fuel inside (.text s)
    | .bracket '[' :: rest =>
      set rest
      let items ← readItems fuel inside (.bracket ']') false
      readPostfix fuel inside (.list items)
    | .bracket '\x7b' :: rest =>
      set rest
      let pairs ← readPairs fuel inside false
      readPostfix fuel inside (.dict pairs)
    | _ => failure

/-- Terms separated by commas up to a closing bracket; a comma may stand before the bracket. -/
def readItems : Nat → Bool → Lexeme → Bool → Reader (List Term)
  | 0, _, _, _ => failure
  | fuel + 1, inside, closing, further => do
    if ← accept closing then return []
    else
      if further then expect (symbol ",")
      if ← acceptWhen further closing then return []
      else
        let t ← readTerm fuel 0 inside
        return t :: (← readItems fuel inside closing true)

/-- Keys with their values up to a closing brace. A key is a number, a text or a name, taken as text, or a
term in parentheses. -/
def readPairs : Nat → Bool → Bool → Reader (List (Term × Term))
  | 0, _, _ => failure
  | fuel + 1, inside, further => do
    if ← accept (.bracket '\x7d') then return []
    else
      if further then expect (symbol ",")
      if ← acceptWhen further (.bracket '\x7d') then return []
      else
        let key ← readKey fuel inside
        expect (symbol ":")
        let value ← readTerm fuel 0 inside
        return (key, value) :: (← readPairs fuel inside true)

def readKey : Nat → Bool → Reader Term
  | 0, _ => failure
  | fuel + 1, inside => do
    match ← get with
    | .number s :: rest | .text s :: rest | .name s :: rest =>
      set rest
      return .text s
    | .bracket '(' :: _ => readTerm fuel 0 inside
    | _ => failure

/-- The members, indexes, slices and method calls that follow an operand. -/
def readPostfix : Nat → Bool → Term → Reader Term
  | 0, _, _ => failure
  | fuel + 1, inside, t => do
    match ← get with
    | .op s :: rest =>
      if s = [Byte.period] || s = utf8 "?." then
        let optional := s ≠ [Byte.period]
        set rest
        if ← acceptWhen optional (.bracket '[') then readIndex fuel inside true t
        else
          let n ← memberName
          let (base, chained) :=
            match t with
            | .chain inner => (inner, true)
            | t => (t, false)
          let called ← next (.bracket '(')
          let found := Term.member base (.text n) optional called
          let t ← if called then pure (.call found (← readArguments fuel inside)) else pure found
          readPostfix fuel inside (if chained || optional then .chain t else t)
      else return t
    | .bracket '[' :: rest =>
      set rest
      readIndex fuel inside false t
    | _ => return t

/-- An index or a slice after its opening bracket. -/
def readIndex : Nat → Bool → Bool → Term → Reader Term
  | 0, _, _, _ => failure
  | fuel + 1, inside, optional, base => do
    if ← accept (symbol ":") then
      let hi ← readSliceEnd fuel inside
      readPostfix fuel inside (.slice base none hi)
    else
      let lo ← readTerm fuel 0 inside
      if ← accept (symbol ":") then
        let hi ← readSliceEnd fuel inside
        readPostfix fuel inside (.slice base (some lo) hi)
      else
        expect (.bracket ']')
        let found := Term.member base lo optional false
        readPostfix fuel inside (if optional then .chain found else found)

/-- The end of a slice, which may be missing, and its closing bracket. -/
def readSliceEnd : Nat → Bool → Reader (Option Term)
  | 0, _ => failure
  | fuel + 1, inside => do
    if ← accept (.bracket ']') then return none
    else
      let t ← readTerm fuel 0 inside
      expect (.bracket ']')
      return some t

def readArguments : Nat → Bool → Reader (List Term)
  | 0, _ => failure
  | fuel + 1, inside => do
    expect (.bracket '(')
    readItems fuel inside (.bracket ')') false

/-- The call of a function with the arguments between parentheses after the given ones. -/
def readCall : Nat → Bool → Bytes → List Term → Reader Term
  | 0, _, _, _ => failure
  | fuel + 1, inside, n, before => do
    match List.lookup n Builtin.names with
    | some b =>
      match b.predicate? with
      | some use =>
        expect (.bracket '(')
        let source ←
          match before with
          | t :: _ => pure t
          | [] => readTerm fuel 0 inside
        if ← acceptWhen (use = .optional) (.bracket ')') then return .builtin b [source]
        else
          if before.isEmpty then expect (symbol ",")
          let p ← readPredicate fuel
          let _ ← accept (symbol ",")
          expect (.bracket ')')
          return .builtin b [source, p]
      | none => return .builtin b (before ++ (← readArguments fuel inside))
    | none =>
      if n ≠ loopsName && reservedFunctions.contains n then failure
      else return .call (.name n) (before ++ (← readArguments fuel inside))

def readPredicate : Nat → Reader Term
  | 0 => failure
  | fuel + 1 => do
    if ← next (.bracket '\x7b') then readBlock fuel true
    else
      let t ← readTerm fuel 0 true
      if ← next (symbol ";") then failure
      return t

end

def Term.ofSource (s : Bytes) : Option Term := do
  let lexemes ← Lexeme.ofSource s
  let (t, rest) ← readSequence (12 * lexemes.length + 24) false lexemes
  if rest.isEmpty && t.size ≤ Term.sizeLimit then some t else none

end PageTemplate.Expression
