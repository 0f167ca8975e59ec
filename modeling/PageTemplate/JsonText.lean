import PageTemplate.Decimal.Layout
import PageTemplate.Failure

/-!
Reading JSON. Numbers keep their decimal, objects keep their members in order with repetitions, and a
text may hold bytes that are no valid UTF-8: these, and surrogates that stand alone, are read as the
replacement character. Nothing but blanks may follow the value.
-/

namespace PageTemplate

inductive JsonValue where
  | null
  | bool (b : Bool)
  | number (negative : Bool) (magnitude : Decimal.Digits)
  | text (s : Bytes)
  | array (items : List JsonValue)
  | object (members : List (Bytes × JsonValue))
  deriving Inhabited

namespace JsonText

def isBlank (b : UInt8) : Bool :=
  b == Byte.space || b == Byte.tab || b == Byte.newline || b == Byte.carriageReturn

def skipBlanks (s : Bytes) : Bytes := s.dropWhile isBlank

/-- A piece of a text: a byte, or a code unit written by its number. -/
inductive Piece where
  | byte (b : UInt8)
  | unit (n : Nat)
  deriving DecidableEq, Repr, Inhabited

/-- The byte that a letter after a backslash stands for. -/
def escaped? (b : UInt8) : Option UInt8 :=
  match b.toNat with
  | 34 | 47 | 92 => some b
  | 98 => some 8
  | 102 => some 12
  | 110 => some 10
  | 114 => some 13
  | 116 => some 9
  | _ => none

def unit? (a b c d : UInt8) : Option Nat :=
  [a, b, c, d].foldlM (fun n x => (Byte.hexValue? x).map (16 * n + ·)) 0

/-- The pieces up to the closing quote, and what follows it. -/
def pieces? : Bytes → Option (List Piece × Bytes)
  | [] => none
  | c :: s =>
    if c = Byte.doubleQuote then some ([], s)
    else if c < Byte.space then none
    else if c = Byte.backslash then
      match s with
      | 117 :: a :: b :: c :: d :: s => do
        let n ← unit? a b c d
        (pieces? s).map fun p => (.unit n :: p.1, p.2)
      | e :: s => do
        let b ← escaped? e
        (pieces? s).map fun p => (.byte b :: p.1, p.2)
      | [] => none
    else (pieces? s).map fun p => (.byte c :: p.1, p.2)

def isHigh (n : Nat) : Bool := 0xD800 ≤ n && n < 0xDC00

def isLow (n : Nat) : Bool := 0xDC00 ≤ n && n < 0xE000

def encodeUnit (n : Nat) : Bytes :=
  Text.encodeChar (if isHigh n || isLow n then Char.ofNat 0xFFFD else Char.ofNat n)

/-- The bytes of pieces: two code units that are the halves of a character make that character. -/
def assemble : List Piece → Bytes
  | [] => []
  | .byte b :: ps => b :: assemble ps
  | [.unit n] => encodeUnit n
  | .unit n :: .byte b :: ps => encodeUnit n ++ b :: assemble ps
  | .unit n :: .unit m :: ps =>
    if isHigh n && isLow m then
      Text.encodeChar (Char.ofNat (0x10000 + (n - 0xD800) * 0x400 + (m - 0xDC00))) ++ assemble ps
    else encodeUnit n ++ assemble (.unit m :: ps)

def text? (s : Bytes) : Option (Bytes × Bytes) :=
  (pieces? s).map fun p => ((Text.glyphs (assemble p.1)).flatMap fun g => Text.encodeChar g.toChar, p.2)

/-- A run of at least one digit: its number, its length and what follows it. -/
def digits? (s : Bytes) : Option (Nat × Nat × Bytes) :=
  let r := Decimal.readDigits s
  if r.2.1 = 0 then none else some r

/-- A number without its sign, and what follows it. -/
def magnitude? (s : Bytes) : Option (Decimal.Digits × Bytes) := do
  let (whole, n, rest) ← digits? s
  if n > 1 && s.head? = some Byte.zero then none
  else
    let (value, places, rest) ←
      match rest with
      | c :: after =>
        if c = Byte.period then
          (digits? after).map fun (fraction, m, rest) => (whole * Nat.pow 10 m + fraction, m, rest)
        else some (whole, 0, rest)
      | [] => some (whole, 0, rest)
    let (exponent, rest) : Int × Bytes ←
      match rest with
      | c :: after =>
        if c = 101 || c = 69 then
          let (negative, after) := Decimal.readSign after
          (digits? after).map fun (e, _, rest) => (if negative then -(e : Int) else e, rest)
        else some (0, rest)
      | [] => some (0, rest)
    return (⟨value, exponent - places⟩, rest)

def number? (s : Bytes) : Option (JsonValue × Bytes) :=
  match s with
  | c :: rest =>
    if c = Byte.minus then (magnitude? rest).map fun r => (.number true r.1, r.2)
    else (magnitude? s).map fun r => (.number false r.1, r.2)
  | [] => none

def word? (word : Bytes) (v : JsonValue) (s : Bytes) : Option (JsonValue × Bytes) :=
  if word.isPrefixOf s then some (v, s.drop word.length) else none

mutual

/-- The value that a text begins with, and what follows it. Lists and objects nest at most `depth` deep. -/
def value : Nat → Nat → Bytes → Option (JsonValue × Bytes)
  | 0, _, _ => none
  | fuel + 1, depth, s =>
    match skipBlanks s with
    | [] => none
    | c :: rest =>
      if c = Byte.leftBracket then
        if depth = 0 then none
        else
          match skipBlanks rest with
          | 93 :: rest => some (.array [], rest)
          | rest => (items fuel (depth - 1) rest).map fun r => (.array r.1, r.2)
      else if c = Byte.leftBrace then
        if depth = 0 then none
        else
          match skipBlanks rest with
          | 125 :: rest => some (.object [], rest)
          | rest => (members fuel (depth - 1) rest).map fun r => (.object r.1, r.2)
      else if c = Byte.doubleQuote then (text? rest).map fun r => (.text r.1, r.2)
      else if c = 110 then word? (utf8 "null") .null (c :: rest)
      else if c = 116 then word? (utf8 "true") (.bool true) (c :: rest)
      else if c = 102 then word? (utf8 "false") (.bool false) (c :: rest)
      else number? (c :: rest)

def items : Nat → Nat → Bytes → Option (List JsonValue × Bytes)
  | 0, _, _ => none
  | fuel + 1, depth, s => do
    let (v, rest) ← value fuel depth s
    match skipBlanks rest with
    | 44 :: rest => (items fuel depth rest).map fun r => (v :: r.1, r.2)
    | 93 :: rest => some ([v], rest)
    | _ => none

def members : Nat → Nat → Bytes → Option (List (Bytes × JsonValue) × Bytes)
  | 0, _, _ => none
  | fuel + 1, depth, s =>
    match skipBlanks s with
    | 34 :: s => do
      let (key, s) ← text? s
      match skipBlanks s with
      | 58 :: s =>
        let (v, rest) ← value fuel depth s
        match skipBlanks rest with
        | 44 :: rest => (members fuel depth rest).map fun r => ((key, v) :: r.1, r.2)
        | 125 :: rest => some ([(key, v)], rest)
        | _ => none
      | _ => none
    | _ => none

end

def deepest : Nat := 10000

/-- The value that a whole text writes. Every call but the first follows at least one byte of the text or
begins the value of an item, so that the fuel suffices. -/
def read? (s : Bytes) : Option JsonValue := do
  let (v, rest) ← value (2 * s.length + 2) deepest s
  if (skipBlanks rest).isEmpty then some v else none

def failure : Failure := .plain (utf8 "invalid JSON")

end JsonText

end PageTemplate
