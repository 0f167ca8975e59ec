/-!
Byte strings. Template text is a list of bytes: a source may hold invalid UTF-8, and every offset, column and length
counts bytes.
-/

namespace PageTemplate

abbrev Bytes := List UInt8

def utf8 (s : String) : Bytes := s.toUTF8.data.toList

/-! The bytes that carry meaning in markup and in expressions. -/

namespace Byte

abbrev nul : UInt8 := 0
abbrev tab : UInt8 := 9
abbrev newline : UInt8 := 10
abbrev formFeed : UInt8 := 12
abbrev carriageReturn : UInt8 := 13
abbrev space : UInt8 := 32
abbrev bang : UInt8 := 33
abbrev doubleQuote : UInt8 := 34
abbrev hash : UInt8 := 35
abbrev dollar : UInt8 := 36
abbrev percent : UInt8 := 37
abbrev ampersand : UInt8 := 38
abbrev singleQuote : UInt8 := 39
abbrev leftParen : UInt8 := 40
abbrev rightParen : UInt8 := 41
abbrev star : UInt8 := 42
abbrev plus : UInt8 := 43
abbrev comma : UInt8 := 44
abbrev minus : UInt8 := 45
abbrev period : UInt8 := 46
abbrev slash : UInt8 := 47
abbrev zero : UInt8 := 48
abbrev nine : UInt8 := 57
abbrev colon : UInt8 := 58
abbrev semicolon : UInt8 := 59
abbrev less : UInt8 := 60
abbrev equals : UInt8 := 61
abbrev greater : UInt8 := 62
abbrev question : UInt8 := 63
abbrev upperA : UInt8 := 65
abbrev upperZ : UInt8 := 90
abbrev leftBracket : UInt8 := 91
abbrev backslash : UInt8 := 92
abbrev rightBracket : UInt8 := 93
abbrev caret : UInt8 := 94
abbrev underscore : UInt8 := 95
abbrev backquote : UInt8 := 96
abbrev lowerA : UInt8 := 97
abbrev lowerZ : UInt8 := 122
abbrev leftBrace : UInt8 := 123
abbrev pipe : UInt8 := 124
abbrev rightBrace : UInt8 := 125

/-- The blank bytes of markup: space, tab, line feed, carriage return and form feed. -/
def isBlank (b : UInt8) : Bool :=
  b == space || b == tab || b == newline || b == carriageReturn || b == formFeed

def isDigit (b : UInt8) : Bool := zero ≤ b && b ≤ nine

def isLetter (b : UInt8) : Bool := (lowerA ≤ b && b ≤ lowerZ) || (upperA ≤ b && b ≤ upperZ)

def isIdentifierStart (b : UInt8) : Bool := isLetter b || b == underscore

def isIdentifierPart (b : UInt8) : Bool := isIdentifierStart b || isDigit b

def isQuote (b : UInt8) : Bool := b == singleQuote || b == doubleQuote

def hexValue? (b : UInt8) : Option Nat :=
  if isDigit b then some (b - zero).toNat
  else if lowerA ≤ b && b ≤ 102 then some ((b - lowerA).toNat + 10)
  else if upperA ≤ b && b ≤ 70 then some ((b - upperA).toNat + 10)
  else none

def hexDigit (n : Nat) : UInt8 := if n < 10 then zero + n.toUInt8 else lowerA + (n - 10).toUInt8

end Byte

namespace Bytes

def ofInt (n : Int) : Bytes := utf8 (toString n)

def ofNat (n : Nat) : Bytes := utf8 (toString n)

def toString? (s : Bytes) : Option String := String.fromUTF8? s.toByteArray

def breakOn? (sep : Bytes) : Bytes → Option (Bytes × Bytes)
  | [] => if sep.isEmpty then some ([], []) else none
  | c :: cs =>
    if sep.isPrefixOf (c :: cs) then some ([], (c :: cs).drop sep.length)
    else (breakOn? sep cs).map fun p => (c :: p.1, p.2)

def indexOf? (sep s : Bytes) : Option Nat := (breakOn? sep s).map fun p => p.1.length

def hasInfix (sep s : Bytes) : Bool := (breakOn? sep s).isSome

/-- The parts of a text before and after the first occurrence of a byte. -/
def breakAt? (b : UInt8) : Bytes → Option (Bytes × Bytes)
  | [] => none
  | c :: cs => if c = b then some ([], cs) else (breakAt? b cs).map fun p => (c :: p.1, p.2)

/-- The pieces of a text between the occurrences of a byte. There is always at least one. -/
def splitAt (b : UInt8) : Bytes → List Bytes
  | [] => [[]]
  | c :: cs =>
    match splitAt b cs with
    | [] => [[c]]
    | p :: ps => if c = b then [] :: p :: ps else (c :: p) :: ps

def join (sep : Bytes) : List Bytes → Bytes
  | [] => []
  | [s] => s
  | s :: ss => s ++ sep ++ join sep ss

/-- The text without the longest leading run of bytes satisfying `p` and without the longest
trailing one. -/
def trimWhile (p : UInt8 → Bool) (s : Bytes) : Bytes :=
  (((s.dropWhile p).reverse).dropWhile p).reverse

def trimBlank (s : Bytes) : Bytes := trimWhile Byte.isBlank s

/-- The part of a text after its last line break, which is all of it when there is none. -/
def lastLine (s : Bytes) : Bytes := (s.reverse.takeWhile (· ≠ Byte.newline)).reverse

def firstLine (s : Bytes) : Bytes := s.takeWhile (· ≠ Byte.newline)

def le : Bytes → Bytes → Bool
  | [], _ => true
  | _ :: _, [] => false
  | a :: as, b :: bs => a < b || (a == b && le as bs)

/-- Whether one text stands strictly before another in the order by bytes. -/
def lt (a b : Bytes) : Bool := !le b a

def sort (ss : List Bytes) : List Bytes := ss.mergeSort le

def replicate (n : Nat) (s : Bytes) : Bytes := (List.replicate n s).flatten

def substitute (b : UInt8) (replacement : Bytes) (s : Bytes) : Bytes :=
  s.flatMap fun c => if c = b then replacement else [c]

def toHex (s : Bytes) : Bytes :=
  s.flatMap fun b => [Byte.hexDigit (b.toNat / 16), Byte.hexDigit (b.toNat % 16)]

/-- The bytes that a text of hexadecimal digits stands for. -/
def ofHex? : Bytes → Option Bytes
  | [] => some []
  | [_] => none
  | a :: b :: s => do
    let hi ← Byte.hexValue? a
    let lo ← Byte.hexValue? b
    let rest ← ofHex? s
    return (16 * hi + lo).toUInt8 :: rest

def isIdentifier : Bytes → Bool
  | [] => false
  | c :: cs => Byte.isIdentifierStart c && cs.all Byte.isIdentifierPart

end Bytes

/-! Finite maps as association lists. A key stands at most once in a list built by `insert`; a new key
goes to the end and a known one keeps its place. -/

/-- Values under text keys. -/
abbrev Assoc (α : Type) := List (Bytes × α)

namespace Assoc

variable {α : Type}

def get? (m : Assoc α) (k : Bytes) : Option α := List.lookup k m

def contains (m : Assoc α) (k : Bytes) : Bool := (m.get? k).isSome

def insert (m : Assoc α) (k : Bytes) (v : α) : Assoc α :=
  match m with
  | [] => [(k, v)]
  | (k', v') :: rest => if k' = k then (k, v) :: rest else (k', v') :: insert rest k v

def erase (m : Assoc α) (k : Bytes) : Assoc α := m.filter fun e => e.1 ≠ k

def set? (m : Assoc α) (k : Bytes) : Option α → Assoc α
  | some v => m.insert k v
  | none => m.erase k

def keys (m : Assoc α) : List Bytes := m.map (·.1)

def insertAll (m : Assoc α) (entries : Assoc α) : Assoc α :=
  entries.foldl (fun m e => m.insert e.1 e.2) m

/-- The map holding the given entries, the last one winning under a repeated key. -/
def ofEntries (entries : List (Bytes × α)) : Assoc α := insertAll [] entries

def sorted (m : Assoc α) : Assoc α := m.mergeSort fun a b => Bytes.le a.1 b.1

end Assoc

end PageTemplate
