import PageTemplate.Failure

/-!
Tokens: pieces of a template source that remember where they stand. Cutting a token gives tokens whose
positions are those of their bytes in the source, so a failure found in a piece can still name its
line and column.
-/

namespace PageTemplate.Markup

/-- The kinds of lexemes that a source falls into. -/
inductive TokenKind where
  | text
  | comment
  | cdata
  | declaration
  | processingInstruction
  | endTag
  | startTag
  | emptyTag
  deriving DecidableEq, Repr, Inhabited

namespace TokenKind

def name : TokenKind → Bytes
  | text => utf8 "text"
  | comment => utf8 "comment"
  | cdata => utf8 "cdata"
  | declaration => utf8 "declaration"
  | processingInstruction => utf8 "processing_instruction"
  | endTag => utf8 "end_tag"
  | startTag => utf8 "start_tag"
  | emptyTag => utf8 "empty_tag"

def all : List TokenKind :=
  [text, comment, cdata, declaration, processingInstruction, endTag, startTag, emptyTag]

def ofName (n : Bytes) : TokenKind := (all.find? fun k => k.name == n).getD text

end TokenKind

/-- A piece of a source with its offset. -/
structure Token where
  kind : TokenKind := .text
  value : Bytes := []
  pos : Nat := 0
  source : Bytes := []
  filename : Bytes := []
  deriving DecidableEq, Repr, Inhabited

namespace Token

def whole (source filename : Bytes) : Token := ⟨.text, source, 0, source, filename⟩

def stop (t : Token) : Nat := t.pos + t.value.length

/-- The line and column of the token; without a source it counts as one line. -/
def location (t : Token) : Nat × Nat :=
  if t.source.isEmpty then (1, t.pos + 1) else lineColumn t.source t.pos

def span (t : Token) : Option Span :=
  if t.source.isEmpty then none
  else some (Span.at? (some ⟨t.source, t.filename⟩) t.pos t.value.length)

def slice (t : Token) (i j : Nat) : Token :=
  { t with value := (t.value.drop i).take (j - i), pos := t.pos + i }

def drop (t : Token) (i : Nat) : Token := { t with value := t.value.drop i, pos := t.pos + i }

def trim (t : Token) : Token :=
  let lead := (t.value.takeWhile Byte.isBlank).length
  t.slice lead (lead + (Bytes.trimBlank t.value).length)

/-- The pieces of a text between the first `n` occurrences of a separator. -/
def pieces (sep : Bytes) : Nat → Bytes → List Bytes
  | 0, s => [s]
  | n + 1, s =>
    match Bytes.breakOn? sep s with
    | some (a, b) => a :: pieces sep n b
    | none => [s]

/-- The tokens of consecutive pieces separated by `sep`, the first standing at `i`. -/
def place (t : Token) (sep : Bytes) : Nat → List Bytes → List Token
  | _, [] => []
  | i, p :: ps => t.slice i (i + p.length) :: place t sep (i + p.length + sep.length) ps

/-- The token cut at the first `n - 1` occurrences of the separator, or at all of them when `n` is
negative. There is no result when there are infinitely many cuts to make, that is, when all
occurrences of the empty separator are asked for. -/
def splitN? (t : Token) (sep : Bytes) (n : Int) : Option (List Token) :=
  if n < 0 then
    if sep.isEmpty then none else some (t.place sep 0 (pieces sep t.value.length t.value))
  else some (t.place sep 0 (pieces sep (n - 1).toNat t.value))

def split? (t : Token) (sep : Bytes) : Option (List Token) := t.splitN? sep (-1)

/-- The token holding the bytes of several, standing where the first of them stands. -/
def concat : List Token → Token
  | [] => {}
  | t :: ts => { t with value := (t :: ts).flatMap (·.value) }

end Token

def Token.fault (t : Token) (kind : FaultKind) (summary : Bytes) (related : Option Failure := none) : Failure :=
  .fault kind t.span summary related

end PageTemplate.Markup
