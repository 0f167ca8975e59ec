import PageTemplate.Directive

/-!
The clauses of directives. A list of clauses is separated by semicolons, and a doubled semicolon stands
for one. A clause that binds names gives one name, or several in parentheses, and an expression.
-/

namespace PageTemplate.Clause

open Markup (Token)

def reservedNames : List Bytes :=
  [utf8 "default", utf8 "nothing", utf8 "repeat", utf8 "macros", utf8 "econtext", utf8 "rcontext", utf8 "translate",
    utf8 "target_language", utf8 "attrs", utf8 "template"]

/-- The texts between single semicolons with their beginnings and ends; doubled semicolons are undone. -/
def pieces (start pos : Nat) (seen : Bytes) : Bytes → List (Nat × Nat × Bytes)
  | [] => [(start, pos, seen.reverse)]
  | [c] =>
    if c = Byte.semicolon then [(start, pos, seen.reverse), (pos + 1, pos + 1, [])]
    else [(start, pos + 1, (c :: seen).reverse)]
  | c :: d :: s =>
    if c ≠ Byte.semicolon then pieces start (pos + 1) (c :: seen) (d :: s)
    else if d = Byte.semicolon then pieces start (pos + 2) (c :: seen) s
    else (start, pos, seen.reverse) :: pieces (pos + 1) (pos + 1) [] (d :: s)

def split (t : Token) : List Token :=
  ((pieces 0 0 [] t.value).map fun p => ({ t.slice p.1 p.2.1 with value := p.2.2 }).trim).filter
    fun p => !p.value.isEmpty

def readName? (s : Bytes) : Option (Bytes × Bytes) :=
  match s with
  | c :: _ =>
    if Byte.isIdentifierStart c then some (s.takeWhile Byte.isIdentifierPart, s.dropWhile Byte.isIdentifierPart)
    else none
  | [] => none

def skipBlanks (s : Bytes) : Bytes := s.dropWhile Byte.isBlank

/-- The names that follow the first in parentheses and what comes after the closing one; a comma may stand
before it. -/
def readNames? : Nat → Bytes → Option (List Bytes × Bytes)
  | 0, _ => none
  | fuel + 1, s =>
    match skipBlanks s with
    | c :: s =>
      if c = Byte.rightParen then some ([], s)
      else if c = Byte.comma then
        match readName? (skipBlanks s) with
        | some (n, s) => (readNames? fuel s).map fun r => (n :: r.1, r.2)
        | none =>
          match skipBlanks s with
          | c :: s => if c = Byte.rightParen then some ([], s) else none
          | [] => none
      else none
    | [] => none

/-- One name, or several in parentheses, and the rest. -/
def readTargets? (s : Bytes) : Option (List Bytes × Bytes) :=
  match readName? s with
  | some (n, s) => some ([n], s)
  | none =>
    match s with
    | c :: s =>
      if c = Byte.leftParen then do
        let (n, s) ← readName? (skipBlanks s)
        let (ns, s) ← readNames? (s.length + 1) s
        return (n :: ns, s)
      else none
    | [] => none

def afterBlank? (whole rest : Bytes) : Option Nat :=
  let s := skipBlanks rest
  if s.isEmpty || s.length = rest.length then none else some (whole.length - s.length)

/-- The names bound by a clause `names expression` and the offset of the expression. `whole` ends with the
text that is read. -/
def readBinding? (whole s : Bytes) : Option (List Bytes × Nat) := do
  let (ns, rest) ← readTargets? s
  return (ns, ← afterBlank? whole rest)

def afterWord? (word s : Bytes) : Option Bytes :=
  if word.isPrefixOf s then
    (afterBlank? s (s.drop word.length)).map fun i => s.drop i
  else none

structure Definition where
  names : List Bytes
  expr : Token
  isGlobal : Bool
  deriving Inhabited

def checkNames (t : Token) (names : List Bytes) : Except Failure Unit :=
  match names.find? reservedNames.contains with
  | some n => .error (t.fault .translation (utf8 "Name " ++ Text.quote n ++ utf8 " is reserved"))
  | none => .ok ()

/-- The names, the offset of the expression and the reach of a definition. The words `local` and `global` are
names themselves when no other name follows. -/
def readDefinition? (s : Bytes) : Option (List Bytes × Nat × Bool) :=
  let reaching (word : String) (isGlobal : Bool) : Option (List Bytes × Nat × Bool) := do
    let rest ← afterWord? (utf8 word) s
    let (ns, i) ← readBinding? s rest
    return (ns, i, isGlobal)
  reaching "local" false <|> reaching "global" true <|> (readBinding? s s).map fun r => (r.1, r.2, false)

def definitions (t : Token) : Except Failure (List Definition) := do
  let ds ← (split t).mapM fun part =>
    match readDefinition? part.value with
    | none => throw (part.fault .language (utf8 "Invalid define syntax"))
    | some (names, i, isGlobal) => do
      checkNames part names
      return { names, expr := part.drop i, isGlobal }
  if ds.isEmpty then throw (t.fault .language (utf8 "Invalid define syntax"))
  return ds

/-- The names bound by a loop and its source. -/
def iteration (t : Token) : Except Failure (List Bytes × Token) :=
  let t := t.trim
  match readBinding? t.value t.value with
  | none => .error (t.fault .language (utf8 "Invalid repeat syntax"))
  | some (names, i) => do
    checkNames t names
    return (names, t.drop i)

def isAttributeStart (b : UInt8) : Bool := Byte.isIdentifierStart b || b == Byte.colon

def isAttributePart (b : UInt8) : Bool :=
  Byte.isIdentifierPart b || b == Byte.colon || b == Byte.minus || b == Byte.period

def readAttribute? (s : Bytes) : Option (Bytes × Nat) :=
  if (s.head?.map isAttributeStart).getD false then
    (afterBlank? s (s.dropWhile isAttributePart)).map fun i => (s.takeWhile isAttributePart, i)
  else none

structure AttributeEntry where
  name : Option Bytes
  expr : Token
  deriving Inhabited

/-- The entries for dynamic attributes, after those whose names, in lower case, were seen. -/
def attributeEntries (seen : List Bytes) : List Token → Except Failure (List AttributeEntry)
  | [] => .ok []
  | part :: parts =>
    match readAttribute? part.value with
    | none => return ⟨none, part⟩ :: (← attributeEntries seen parts)
    | some (name, i) =>
      let key := Text.lower name
      if seen.contains key then
        .error (part.fault .language (utf8 "Duplicate attribute name " ++ Text.quote name))
      else return ⟨some name, part.drop i⟩ :: (← attributeEntries (key :: seen) parts)

def attributes (t : Token) : Except Failure (List AttributeEntry) := attributeEntries [] (split t)

/-- The names of translated attributes with their message ids, which may be empty. -/
def translatedAttributes (t : Token) : Except Failure (List (Bytes × Bytes)) :=
  (split t).mapM fun part =>
    match Text.fields part.value with
    | [name] => .ok (name, [])
    | [name, msgid] => .ok (name, msgid)
    | _ => .error (part.fault .language (utf8 "Invalid i18n:attributes syntax"))

/-- The expression of a substitution, and whether it is inserted without escaping. -/
def substitution (t : Token) : Token × Bool :=
  let t := t.trim
  match afterWord? (utf8 "structure") t.value, afterWord? (utf8 "text") t.value with
  | some rest, _ => (t.drop (t.value.length - rest.length), true)
  | none, some rest => (t.drop (t.value.length - rest.length), false)
  | none, none => (t, false)

/-- The text between quotes that fills brackets. -/
def readBracketed? (s : Bytes) : Option Bytes :=
  match skipBlanks s with
  | q :: s =>
    if Byte.isQuote q then
      match Bytes.breakAt? q s with
      | some (name, rest) => if skipBlanks rest = [Byte.rightBracket] then some name else none
      | none => none
    else none
  | [] => none

/-- The name of the macro of the same template that an expression stands for. -/
def internalMacro? (source : Bytes) : Option Bytes :=
  let s := Text.trim source
  let table := utf8 "macros"
  if table.isPrefixOf s then
    match s.drop table.length with
    | c :: rest =>
      let name :=
        if c = Byte.period then if Bytes.isIdentifier rest then some rest else none
        else if c = Byte.leftBracket then readBracketed? rest
        else none
      name.filter fun n => !n.isEmpty
    | [] => none
  else none

end PageTemplate.Clause
