import PageTemplate.Text.LetterCase

/-!
Names in markup: which bytes they are made of, how a name is divided at its colon, the namespaces that
prefixes stand for, and the names that have a meaning of their own in HTML.
-/

namespace PageTemplate.Markup

/-- Whether a byte may begin a tag name. Bytes outside ASCII may, so that such names survive. -/
def isNameStart (b : UInt8) : Bool :=
  Byte.isLetter b || b == Byte.underscore || b == Byte.colon || 0x80 ≤ b

def isNameByte (b : UInt8) : Bool :=
  isNameStart b || Byte.isDigit b || b == Byte.minus || b == Byte.period

def isAttributeNameByte (b : UInt8) : Bool :=
  !(b == Byte.equals || b == Byte.greater || b == Byte.slash || Byte.isQuote b || b == Byte.less ||
    Byte.isBlank b)

/-- The byte that has the same classes as a character code: a negative code has none, and a code beyond
a byte is like any byte outside ASCII. -/
def classByte? : Int → Option UInt8
  | .ofNat n => some (min n 255).toUInt8
  | .negSucc _ => none

/-- The parts of a name before and after its first colon; the first is empty when there is none. -/
def splitName (name : Bytes) : Bytes × Bytes := (Bytes.breakAt? Byte.colon name).getD ([], name)

def mergeName (lead name : Bytes) : Bytes :=
  if lead.isEmpty then name else lead ++ Byte.colon :: name

/-- A name with the namespace that its lead stands for. -/
structure Key where
  space : Bytes
  name : Bytes
  deriving DecidableEq, Repr, Inhabited

namespace Namespace

def xml : Bytes := utf8 "http://www.w3.org/XML/1998/namespace"
def xmlns : Bytes := utf8 "http://www.w3.org/2000/xmlns/"
def tal : Bytes := utf8 "http://xml.zope.org/namespaces/tal"
def metal : Bytes := utf8 "http://xml.zope.org/namespaces/metal"
def i18n : Bytes := utf8 "http://xml.zope.org/namespaces/i18n"

def isDirective (ns : Bytes) : Bool := ns == tal || ns == metal || ns == i18n

end Namespace

/-- What the leads of names stand for; the empty lead gives the namespace of plain element names. -/
abbrev Bindings := Assoc Bytes

def Bindings.initial : Bindings :=
  [(utf8 "xml", Namespace.xml), (utf8 "xmlns", Namespace.xmlns), (utf8 "tal", Namespace.tal),
    (utf8 "metal", Namespace.metal), (utf8 "i18n", Namespace.i18n)]

def declaredLead? (name : Bytes) : Option Bytes :=
  let p := splitName name
  if p.1.isEmpty && p.2 == utf8 "xmlns" then some []
  else if p.1 == utf8 "xmlns" then some p.2
  else none

def Bindings.elementKey (b : Bindings) (name : Bytes) : Key :=
  let p := splitName name
  if p.1.isEmpty then ⟨(b.get? []).getD [], name⟩
  else
    match b.get? p.1 with
    | some ns => ⟨ns, p.2⟩
    | none => ⟨[], name⟩

def Bindings.attributeKey (b : Bindings) (space name : Bytes) : Key :=
  let p := splitName name
  if p.1.isEmpty then
    if name == utf8 "xmlns" then ⟨Namespace.xmlns, []⟩
    else if Namespace.isDirective space then ⟨space, name⟩
    else ⟨[], name⟩
  else
    match b.get? p.1 with
    | some ns => ⟨ns, p.2⟩
    | none => ⟨[], name⟩

def voidElements : List Bytes :=
  ["area", "base", "br", "col", "embed", "hr", "img", "input", "keygen", "link", "meta", "param",
    "source", "track", "wbr"].map utf8

def booleanAttributes : List Bytes :=
  ["async", "autofocus", "autoplay", "checked", "controls", "default", "defer", "disabled",
    "formnovalidate", "hidden", "ismap", "loop", "multiple", "muted", "nomodule", "novalidate", "open",
    "readonly", "required", "reversed", "selected"].map utf8

/-- Whether an element of this name, its lead aside, never has an end tag. -/
def isVoidElement (name : Bytes) : Bool := voidElements.contains (Text.lower (splitName name).2)

def isBooleanAttribute (name : Bytes) : Bool := booleanAttributes.contains (Text.lower name)

/-- The name with every character that cannot stand in an identifier replaced by an underscore. -/
def identifierOf (name : Bytes) : Bytes :=
  (Text.glyphs name).map fun g =>
    match g.bytes with
    | [b] => if Byte.isIdentifierPart b then b else Byte.underscore
    | _ => Byte.underscore

end PageTemplate.Markup
