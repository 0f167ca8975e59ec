import PageTemplate.Bytes

/-!
UTF-8 read off a byte string. A text falls into units: a character where the bytes are well formed,
and one stray byte where they are not. Blank characters, fields and trimming are those of the units.
-/

namespace PageTemplate.Text

/-- One step of reading a byte string as UTF-8. -/
inductive Glyph where
  | char (c : Char)
  | stray (b : UInt8)
  deriving DecidableEq, Repr, Inhabited

def encodeChar (c : Char) : Bytes := utf8 (String.singleton c)

namespace Glyph

/-- The character of a unit, where a stray byte counts as the replacement character. -/
def toChar : Glyph → Char
  | char c => c
  | stray _ => Char.ofNat 0xFFFD

def bytes : Glyph → Bytes
  | char c => encodeChar c
  | stray b => [b]

end Glyph

def continuation? (b : UInt8) : Option Nat := if 0x80 ≤ b && b < 0xC0 then some (b.toNat - 0x80) else none

/-- The character of a multi-byte sequence given by its lead byte and what follows, with the number
of bytes after the lead. Overlong forms, surrogates and numbers beyond the last plane are refused. -/
def sequence? (lead : UInt8) (rest : Bytes) : Option (Char × Nat) :=
  if lead < 0xC2 then none
  else if lead < 0xE0 then
    match rest with
    | b :: _ => do
      let x ← continuation? b
      return (Char.ofNat ((lead.toNat - 0xC0) * 64 + x), 1)
    | _ => none
  else if lead < 0xF0 then
    match rest with
    | b :: c :: _ => do
      let x ← continuation? b
      let y ← continuation? c
      let n := (lead.toNat - 0xE0) * 4096 + x * 64 + y
      if n < 0x800 || (0xD800 ≤ n && n < 0xE000) then none else return (Char.ofNat n, 2)
    | _ => none
  else if lead < 0xF5 then
    match rest with
    | b :: c :: d :: _ => do
      let x ← continuation? b
      let y ← continuation? c
      let z ← continuation? d
      let n := (lead.toNat - 0xF0) * 262144 + x * 4096 + y * 64 + z
      if n < 0x10000 || 0x110000 ≤ n then none else return (Char.ofNat n, 3)
    | _ => none
  else none

/-- The units of a text, in order. -/
def glyphs : Bytes → List Glyph
  | [] => []
  | b :: rest =>
    if b < 0x80 then .char (Char.ofNat b.toNat) :: glyphs rest
    else
      match sequence? b rest with
      | some (c, n) => .char c :: glyphs (rest.drop n)
      | none => .stray b :: glyphs rest
termination_by s => s.length

def ofGlyphs (gs : List Glyph) : Bytes := gs.flatMap Glyph.bytes

def length (s : Bytes) : Nat := (glyphs s).length

def isValid (s : Bytes) : Bool := (glyphs s).all fun | .char _ => true | .stray _ => false

def isBlank (c : Char) : Bool :=
  let n := c.toNat
  (9 ≤ n && n ≤ 13) || n == 32 || n == 0x85 || n == 0xA0 || n == 0x1680 ||
    (0x2000 ≤ n && n ≤ 0x200A) || n == 0x2028 || n == 0x2029 || n == 0x202F || n == 0x205F || n == 0x3000

def Glyph.isBlank : Glyph → Bool
  | .char c => Text.isBlank c
  | .stray _ => false

def trim (s : Bytes) : Bytes :=
  ofGlyphs (((((glyphs s).dropWhile Glyph.isBlank).reverse).dropWhile Glyph.isBlank).reverse)

def isBlankText (s : Bytes) : Bool := (glyphs s).all Glyph.isBlank

def runs {α : Type} (sep : α → Bool) : List α → List α → List (List α)
  | acc, [] => if acc.isEmpty then [] else [acc.reverse]
  | acc, g :: gs =>
    if sep g then if acc.isEmpty then runs sep [] gs else acc.reverse :: runs sep [] gs
    else runs sep (g :: acc) gs

/-- The words of a text: its longest runs of characters that are not blank. -/
def fields (s : Bytes) : List Bytes := (runs Glyph.isBlank [] (glyphs s)).map ofGlyphs

def collapse (s : Bytes) : Bytes := Bytes.join [Byte.space] (fields s)

end PageTemplate.Text
