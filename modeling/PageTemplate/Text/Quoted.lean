import PageTemplate.Text.CharClass

/-!
Quoted text: a text between double quotes in which quotes, backslashes, control characters, stray
bytes and unprintable characters are written as escapes. Reading a quoted literal also accepts raw
literals between backquotes and single characters between apostrophes.
-/

namespace PageTemplate.Text

def hexNumeral : Nat → Nat → Bytes
  | 0, _ => []
  | width + 1, n => hexNumeral width (n / 16) ++ [Byte.hexDigit (n % 16)]

def controlLetter? (c : Char) : Option UInt8 :=
  match c.toNat with
  | 7 => some 97
  | 8 => some 98
  | 12 => some 102
  | 10 => some 110
  | 13 => some 114
  | 9 => some 116
  | 11 => some 118
  | _ => none

/-- The written form of one unit between double quotes. -/
def quoteGlyph : Glyph → Bytes
  | .stray b => utf8 "\\x" ++ hexNumeral 2 b.toNat
  | .char c =>
    if c = '"' || c = '\\' then Byte.backslash :: encodeChar c
    else if isPrintable c then encodeChar c
    else
      match controlLetter? c with
      | some l => [Byte.backslash, l]
      | none =>
        if c.toNat < 0x20 || c.toNat == 0x7F then utf8 "\\x" ++ hexNumeral 2 c.toNat
        else if c.toNat < 0x10000 then utf8 "\\u" ++ hexNumeral 4 c.toNat
        else utf8 "\\U" ++ hexNumeral 8 c.toNat

def quote (s : Bytes) : Bytes :=
  Byte.doubleQuote :: ((glyphs s).flatMap quoteGlyph ++ [Byte.doubleQuote])

/-- The number written by the first `width` digits, which must be hexadecimal, and the rest. -/
def readHex? : Nat → Nat → Bytes → Option (Nat × Bytes)
  | 0, n, s => some (n, s)
  | _ + 1, _, [] => none
  | width + 1, n, b :: s =>
    match Byte.hexValue? b with
    | some d => readHex? width (16 * n + d) s
    | none => none

theorem readHex?_length {width n : Nat} {s : Bytes} {r : Nat × Bytes} (h : readHex? width n s = some r) :
    r.2.length ≤ s.length := by
  induction width generalizing n s with
  | zero => simp [readHex?] at h; simp [← h]
  | succ width ih =>
    cases s with
    | nil => simp [readHex?] at h
    | cons b s =>
      simp only [readHex?] at h
      split at h
      · exact Nat.le_succ_of_le (ih h)
      · simp at h

def isScalar (n : Nat) : Bool := n < 0xD800 || (0xE000 ≤ n && n < 0x110000)

/-- The control character that a letter after a backslash stands for. -/
def controlOf? (b : UInt8) : Option UInt8 :=
  match b.toNat with
  | 97 => some 7
  | 98 => some 8
  | 102 => some 12
  | 110 => some 10
  | 114 => some 13
  | 116 => some 9
  | 118 => some 11
  | _ => none

def readCodePoint? (width : Nat) (s : Bytes) : Option (Bytes × Bytes) :=
  (readHex? width 0 s).bind fun r =>
    if isScalar r.1 then some (encodeChar (Char.ofNat r.1), r.2) else none

/-- The byte written by three octal digits, and the rest. -/
def readOctal? : Bytes → Option (Bytes × Bytes)
  | b :: c :: d :: s =>
    if [b, c, d].all fun x => 48 ≤ x && x ≤ 55 then
      let n := (b.toNat - 48) * 64 + (c.toNat - 48) * 8 + (d.toNat - 48)
      if n ≤ 255 then some ([n.toUInt8], s) else none
    else none
  | _ => none

/-- The text that an escape inside quotes `q` stands for, read after its backslash, and the rest. -/
def readEscape? (q b : UInt8) (s : Bytes) : Option (Bytes × Bytes) :=
  match controlOf? b with
  | some c => some ([c], s)
  | none =>
    if b = Byte.backslash || (Byte.isQuote b && b = q) then some ([b], s)
    else if b = 120 then (readHex? 2 0 s).map fun r => ([r.1.toUInt8], r.2)
    else if b = 117 then readCodePoint? 4 s
    else if b = 85 then readCodePoint? 8 s
    else readOctal? (b :: s)

/-- The text of the next character inside quotes `q`, written plainly or as an escape, and the rest.
A stray byte is read as the replacement character; a line break and the quote itself are refused. -/
def readQuotedChar? (q : UInt8) : Bytes → Option (Bytes × Bytes)
  | [] => none
  | b :: s =>
    if b = q || b = Byte.newline then none
    else if b = Byte.backslash then
      match s with
      | e :: s => readEscape? q e s
      | [] => none
    else if b < 0x80 then some ([b], s)
    else
      match sequence? b s with
      | some (c, n) => some (encodeChar c, s.drop n)
      | none => some (encodeChar (Char.ofNat 0xFFFD), s)

theorem readCodePoint?_length {width : Nat} {s : Bytes} {r : Bytes × Bytes}
    (h : readCodePoint? width s = some r) : r.2.length ≤ s.length := by
  simp only [readCodePoint?, Option.bind_eq_some_iff] at h
  obtain ⟨x, hx, h⟩ := h
  split at h
  · simp only [Option.some.injEq] at h
    simpa [← h] using readHex?_length hx
  · simp at h

theorem readOctal?_length {s : Bytes} {r : Bytes × Bytes} (h : readOctal? s = some r) : r.2.length < s.length := by
  unfold readOctal? at h
  split at h
  · split at h
    · dsimp only at h
      split at h
      · simp only [Option.some.injEq] at h
        simp only [← h, List.length_cons]
        omega
      · simp at h
    · simp at h
  · simp at h

theorem readEscape?_length {q b : UInt8} {s : Bytes} {r : Bytes × Bytes}
    (h : readEscape? q b s = some r) : r.2.length ≤ s.length := by
  unfold readEscape? at h
  split at h
  · simp only [Option.some.injEq] at h
    simp [← h]
  · split at h
    · simp only [Option.some.injEq] at h
      simp [← h]
    · split at h
      · simp only [Option.map_eq_some_iff] at h
        obtain ⟨x, hx, h⟩ := h
        simpa [← h] using readHex?_length hx
      · split at h
        · exact readCodePoint?_length h
        · split at h
          · exact readCodePoint?_length h
          · have := readOctal?_length h
            simp only [List.length_cons] at this
            omega

theorem readQuotedChar?_length {q : UInt8} {s : Bytes} {r : Bytes × Bytes}
    (h : readQuotedChar? q s = some r) : r.2.length < s.length := by
  cases s with
  | nil => simp [readQuotedChar?] at h
  | cons b s =>
    simp only [readQuotedChar?] at h
    split at h
    · simp at h
    · split at h
      · split at h
        · have := readEscape?_length h
          simp only [List.length_cons]
          omega
        · simp at h
      · split at h
        · simp only [Option.some.injEq] at h
          simp [← h]
        · split at h <;> simp only [Option.some.injEq] at h <;> subst h <;>
            simp only [List.length_drop, List.length_cons] <;> omega

/-- The text up to a closing double quote that ends the input. -/
def readQuoted? (s : Bytes) : Option Bytes :=
  if s = [Byte.doubleQuote] then some []
  else
    match _h : readQuotedChar? Byte.doubleQuote s with
    | none => none
    | some r => (readQuoted? r.2).map (r.1 ++ ·)
termination_by s.length
decreasing_by exact readQuotedChar?_length _h

/-- The text of a literal: escaped between double quotes, raw between backquotes (where carriage
returns are dropped), or at most one character between apostrophes. -/
def unquote? : Bytes → Option Bytes
  | [] => none
  | q :: s =>
    if q = Byte.backquote then
      match Bytes.breakAt? q s with
      | some (body, []) => some (body.filter (· ≠ Byte.carriageReturn))
      | _ => none
    else if q = Byte.doubleQuote then readQuoted? s
    else if q = Byte.singleQuote then
      if s = [q] then some []
      else
        match readQuotedChar? q s with
        | some (c, rest) => if rest = [q] then some c else none
        | none => none
    else none

end PageTemplate.Text
