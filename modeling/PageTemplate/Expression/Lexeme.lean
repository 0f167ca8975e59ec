import PageTemplate.Text.CharClass

/-!
The lexemes of the expression language: numbers, texts, names, operators and brackets. Words that name
operators are operators; comments and blanks separate lexemes. A text that holds something else has no
lexemes.
-/

namespace PageTemplate.Expression

/-- The smallest meaningful parts of an expression. -/
inductive Lexeme where
  | number (digits : Bytes)
  /-- The text that a literal stands for. -/
  | text (s : Bytes)
  | name (word : Bytes)
  | op (symbol : Bytes)
  | bracket (b : Char)
  deriving DecidableEq, Repr, Inhabited

namespace Lexeme

open Text (Glyph)

def isWordChar (c : Char) : Bool := c = '_' || c = '$' || Text.isAlphanumeric c

def isWordGlyph (g : Glyph) : Bool := isWordChar g.toChar

def wordOperators : List Bytes :=
  [utf8 "not", utf8 "in", utf8 "or", utf8 "and", utf8 "matches", utf8 "contains", utf8 "startsWith", utf8 "endsWith",
    utf8 "let", utf8 "if", utf8 "else"]

def ofWord (w : Bytes) : Lexeme := if wordOperators.contains w then op w else name w

/-- The beginning of a list of units made of the given characters, and the rest. -/
def run (chars : String) (s : List Glyph) : List Glyph × List Glyph :=
  s.span fun g => chars.toList.contains g.toChar

def accept (chars : String) : List Glyph → List Glyph × List Glyph
  | g :: s => if chars.toList.contains g.toChar then ([g], s) else ([], g :: s)
  | [] => ([], [])

/-- The digits that may follow the beginning of a number, with that beginning and the rest. -/
def radix (s : List Glyph) : List Glyph × String × List Glyph :=
  let decimal := "0123456789_"
  match accept "0" s with
  | ([], s) => ([], decimal, s)
  | (zero, s) =>
    match accept "xX" s, accept "oO" s, accept "bB" s with
    | (x@(_ :: _), s), _, _ => (zero ++ x, "0123456789abcdefABCDEF_", s)
    | _, (o@(_ :: _), s), _ => (zero ++ o, "01234567_", s)
    | _, _, (b@(_ :: _), s) => (zero ++ b, "01_", s)
    | _, _, _ => (zero, decimal, s)

/-- The exponent of a number, if one begins here, and the rest. -/
def exponent (digits : String) (s : List Glyph) : List Glyph × List Glyph :=
  match accept "eE" s with
  | ([], s) => ([], s)
  | (e, s) =>
    let (sign, s) := accept "+-" s
    let (ds, s) := run digits s
    (e ++ sign ++ ds, s)

/-- The number that begins here and the rest. A point that begins a range does not belong to the number;
a word must not follow directly. -/
def scanNumber (s : List Glyph) : Option (List Glyph × List Glyph) :=
  let (lead, digits, s) := radix s
  let (whole, s) := run digits s
  let number := lead ++ whole
  let closed (number : List Glyph) (s : List Glyph) : Option (List Glyph × List Glyph) :=
    let (e, s) := exponent digits s
    if (s.head?.map isWordGlyph).getD false then none else some (number ++ e, s)
  match accept "." s with
  | ([], s) => closed number s
  | (point, rest) =>
    if rest.head?.map Glyph.toChar = some '.' then some (number, s)
    else
      let (fraction, rest) := run digits rest
      closed (number ++ point ++ fraction) rest

/-- The number of octal or hexadecimal digits that an escape takes, and their base. -/
def escapeDigits? (c : Char) : Option (Nat × Nat) :=
  if c = 'x' then some (2, 16)
  else if c = 'u' then some (4, 16)
  else if c = 'U' then some (8, 16)
  else none

def digitValue? (base : Nat) (g : Glyph) : Option Nat :=
  let c := g.toChar
  let v := if c.isDigit then some (c.toNat - 48)
    else if 'a' ≤ c && c ≤ 'f' then some (c.toNat - 87)
    else if 'A' ≤ c && c ≤ 'F' then some (c.toNat - 55)
    else none
  v.filter (· < base)

/-- The number written by exactly `n` digits of a base, and the rest. -/
def fixedDigits (base : Nat) : Nat → Nat → List Glyph → Option (Nat × List Glyph)
  | 0, acc, s => some (acc, s)
  | _ + 1, _, [] => none
  | n + 1, acc, g :: s =>
    match digitValue? base g with
    | some d => fixedDigits base n (base * acc + d) s
    | none => none

/-- The text of a code point, with the replacement character for one that is none. -/
def codePoint (n : Nat) : Option Bytes :=
  if n > 0x10FFFF then none
  else if 0xD800 ≤ n && n < 0xE000 then some (Text.encodeChar (Char.ofNat 0xFFFD))
  else some (Text.encodeChar (Char.ofNat n))

/-- The text that an escape between quotes stands for, and the rest. -/
def escape (quote c : Char) (s : List Glyph) : Option (Bytes × List Glyph) :=
  let simple (n : Nat) : Option (Bytes × List Glyph) := some ([n.toUInt8], s)
  if c = quote || c = '\\' then some (Text.encodeChar c, s)
  else if c = 'a' then simple 7
  else if c = 'b' then simple 8
  else if c = 'f' then simple 12
  else if c = 'n' then simple 10
  else if c = 'r' then simple 13
  else if c = 't' then simple 9
  else if c = 'v' then simple 11
  else if '0' ≤ c && c ≤ '3' then
    (fixedDigits 8 2 (c.toNat - 48) s).bind fun r => (codePoint r.1).map (·, r.2)
  else
    match escapeDigits? c with
    | some (n, base) => (fixedDigits base n 0 s).bind fun r => (codePoint r.1).map (·, r.2)
    | none => none

/-- The text up to the closing quote and what follows it, in at most `fuel` characters. A carriage return,
alone or before a line feed, cannot be told from a line feed. -/
def scanText (quote : Char) : Nat → List Glyph → Option (Bytes × List Glyph)
  | 0, _ | _, [] => none
  | fuel + 1, g :: s =>
    let c := g.toChar
    if c = quote then some ([], s)
    else if c = '\n' then none
    else if c = '\\' then
      match s with
      | e :: s => (escape quote e.toChar s).bind fun r => (scanText quote fuel r.2).map fun t => (r.1 ++ t.1, t.2)
      | [] => none
    else if c = '\r' then (scanText quote fuel s).map fun t => (Byte.newline :: t.1, t.2)
    else (scanText quote fuel s).map fun t => (Text.encodeChar c ++ t.1, t.2)

def backquote : Char := Char.ofNat 96

/-- The raw text up to a closing backquote and what follows it. Two backquotes stand for one. -/
def scanRaw : List Glyph → Option (Bytes × List Glyph)
  | [] => none
  | [g] => if g.toChar = backquote then some ([], []) else none
  | g :: h :: s =>
    if g.toChar ≠ backquote then (scanRaw (h :: s)).map fun t => (g.bytes ++ t.1, t.2)
    else if h.toChar = backquote then (scanRaw s).map fun t => (Byte.backquote :: t.1, t.2)
    else some ([], h :: s)

def afterLine (s : List Glyph) : List Glyph := (s.dropWhile fun g => g.toChar ≠ '\n').drop 1

def afterComment : List Glyph → Option (List Glyph)
  | .char '*' :: .char '/' :: s => some s
  | _ :: s => afterComment s
  | [] => none

/-- The operator made of a character and, if it is one of the given ones, the next. -/
def twoCharOp (c : Char) (second : String) (s : List Glyph) : List Lexeme × List Glyph :=
  let (x, s) := accept second s
  ([op (Text.encodeChar c ++ Text.ofGlyphs x)], s)

/-- The lexemes that begin with a character, none for a blank or a comment, and the rest. -/
def step (c : Char) (s : List Glyph) : Option (List Lexeme × List Glyph) :=
  let whole := Glyph.char c :: s
  if Text.isBlank c then some ([], s)
  else if c = '\'' || c = '"' then (scanText c (s.length + 1) s).map fun r => ([text r.1], r.2)
  else if c = backquote then (scanRaw s).map fun r => ([text r.1], r.2)
  else if c.isDigit then (scanNumber whole).map fun r => ([number (Text.ofGlyphs r.1)], r.2)
  else if c = '?' then some (twoCharOp c ".?" s)
  else if c = '/' then
    match s with
    | .char '/' :: s => some ([], afterLine s)
    | .char '*' :: s => (afterComment s).map ([], ·)
    | s => some ([op [Byte.slash]], s)
  else if c = '#' then
    let (w, s) := s.span isWordGlyph
    some (op [Byte.hash] :: (if w.isEmpty then [] else [name (Text.ofGlyphs w)]), s)
  else if c = '|' then some (twoCharOp c "|" s)
  else if c = ':' then some (twoCharOp c ":" s)
  else if "([\x7b)]\x7d".toList.contains c then some ([bracket c], s)
  else if ",;%+-^".toList.contains c then some ([op (Text.encodeChar c)], s)
  else if "&!=*<>".toList.contains c then some (twoCharOp c "&=*" s)
  else if c = '.' then
    if (s.head?.map fun g => g.toChar.isDigit).getD false then
      (scanNumber whole).map fun r => ([number (Text.ofGlyphs r.1)], r.2)
    else some (twoCharOp c "." s)
  else if isWordChar c then
    let (w, s) := whole.span isWordGlyph
    some ([ofWord (Text.ofGlyphs w)], s)
  else none

def scan : Nat → List Glyph → Option (List Lexeme)
  | _, [] => some []
  | 0, _ => none
  | fuel + 1, g :: s => (step g.toChar s).bind fun r => (scan fuel r.2).map (r.1 ++ ·)

def ofSource (s : Bytes) : Option (List Lexeme) :=
  let gs := Text.glyphs s
  scan (gs.length + 1) gs

end Lexeme

end PageTemplate.Expression
