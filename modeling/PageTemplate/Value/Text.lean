import PageTemplate.Value.Display

/-!
Inserted values. A value inserted into a page is first turned into text and then escaped, unless it
is markup. Escaping leaves no bare `&`, `<` or `>` behind, and in an attribute no delimiter either.
-/

namespace PageTemplate.Value

def toText (v : Value) : Bytes :=
  match v with
  | nil => []
  | text s => s
  | v =>
    match v.markup? with
    | some s => s
    | none =>
      match v with
      | single f | double f => Decimal.plain f
      | bytes s => s
      | v =>
        match v.textMethod? (utf8 "String") with
        | some s => s
        | none => v.display

end PageTemplate.Value

namespace PageTemplate

def escapeByte (b : UInt8) : Bytes :=
  if b = Byte.ampersand then utf8 "&amp;"
  else if b = Byte.less then utf8 "&lt;"
  else if b = Byte.greater then utf8 "&gt;"
  else [b]

def escape (s : Bytes) : Bytes := s.flatMap escapeByte

/-- The written form of a byte in an attribute value: as in text, with its delimiter as an entity too. A
value that is not between apostrophes counts as being between double quotes. -/
def escapeAttributeByte (quote : Bytes) (b : UInt8) : Bytes :=
  if quote = [Byte.singleQuote] then if b = Byte.singleQuote then utf8 "&#39;" else escapeByte b
  else if b = Byte.doubleQuote then utf8 "&quot;"
  else escapeByte b

def escapeAttribute (s quote : Bytes) : Bytes := s.flatMap (escapeAttributeByte quote)

namespace Value

def toContent (v : Value) : Bytes :=
  match v.markup? with
  | some s => s
  | none => escape v.toText

def toAttribute (v : Value) (quote : Bytes) : Bytes :=
  match v.markup? with
  | some s => s
  | none => escapeAttribute v.toText quote

/-- The value marked as markup. A missing value and the default marker stay as they are. -/
def asStructure (v : Value) : Value :=
  match v with
  | nil => nil
  | default => default
  | v => if v.markup?.isSome then v else markup v.toText

end Value

end PageTemplate
