import PageTemplate.Bytes

/-!
Places in a template source. A byte offset determines a line and a column, both counted from one; a
location without a file, or beyond the end of its file, is unknown. A span is a pair of locations and
stands for the text between them.
-/

namespace PageTemplate

structure SourceFile where
  content : Bytes
  name : Bytes
  deriving DecidableEq, Repr, Inhabited

def lineColumn (source : Bytes) (offset : Nat) : Nat × Nat :=
  let before := source.take offset
  (1 + before.count Byte.newline, 1 + (Bytes.lastLine before).length)

/-- An offset with its line and column. -/
structure Point where
  offset : Nat
  line : Nat
  column : Nat
  deriving DecidableEq, Repr, Inhabited

/-- A place in a file; the point is missing when the place is unknown. -/
structure Location where
  file : Option SourceFile
  point : Option Point
  deriving DecidableEq, Repr, Inhabited

/-- The bytes around a location. -/
structure Surroundings where
  before : Bytes
  after : Bytes
  deriving DecidableEq, Repr, Inhabited

/-- The longest beginning of a text that has at most `chars` bytes and ends no later than its
`lines`-th line break. -/
def window (lines : Int) : Nat → Bytes → Bytes
  | 0, _ => []
  | _, [] => []
  | chars + 1, b :: s =>
    if b = Byte.newline then
      if lines = 1 then [b] else b :: window (lines - 1) chars s
    else b :: window lines chars s

namespace Location

def at? (file : Option SourceFile) (offset : Int) : Location :=
  match file, offset with
  | some f, .ofNat n =>
    if n ≤ f.content.length then
      let p := lineColumn f.content n
      ⟨file, some ⟨n, p.1, p.2⟩⟩
    else ⟨file, none⟩
  | _, _ => ⟨file, none⟩

def fileName (l : Location) : Bytes := (l.file.map (·.name)).getD []

/-- The file name followed by line and column, or alone when the place is unknown. -/
def text (l : Location) : Bytes :=
  match l.point with
  | some p => l.fileName ++ utf8 ":" ++ Bytes.ofNat p.line ++ utf8 ":" ++ Bytes.ofNat p.column
  | none => l.fileName

/-- What stands around the location, at most `chars` bytes and `lines` line breaks on either side. The
byte at the location belongs to what comes after; the end of the file counts as its last byte. -/
def surroundings (l : Location) (chars lines : Int) : Option Surroundings :=
  match l.file, l.point with
  | some f, some p =>
    if f.content.isEmpty then none
    else
      let i := min p.offset (f.content.length - 1)
      let after := f.content.drop i
      some {
        before := (window lines chars.toNat (f.content.take i).reverse).reverse
        after := after.take 1 ++ window lines chars.toNat (after.drop 1) }
  | _, _ => none

end Location

/-- A stretch of source between two places, either of which may be missing. -/
structure Span where
  start : Option Location
  stop : Option Location
  deriving DecidableEq, Repr, Inhabited

namespace Span

def at? (file : Option SourceFile) (offset length : Int) : Span :=
  ⟨some (Location.at? file offset), some (Location.at? file (offset + length))⟩

/-- The source text of the span, empty when an end is unknown or they stand the wrong way round. -/
def text (s : Span) : Bytes :=
  match s.start, s.stop with
  | some a, some b =>
    match a.file, a.point, b.point with
    | some f, some p, some q =>
      if p.offset ≤ q.offset then (f.content.drop p.offset).take (q.offset - p.offset) else []
    | _, _, _ => []
  | _, _ => []

end Span

end PageTemplate
