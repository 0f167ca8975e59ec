import PageTemplate.Markup.Tag

/-!
The element tree of a template. Everything that is not an element is kept as its token, so the tree
can be written back as the source it was read from.
-/

namespace PageTemplate.Markup

/-- An attribute with its resolved name. -/
structure Attribute where
  key : Key
  raw : RawAttribute
  deriving DecidableEq, Repr, Inhabited

/-- An element without its contents: its start tag and the names resolved on it. -/
structure ElementHead where
  start : Tag
  key : Key
  attributes : List Attribute
  deriving DecidableEq, Repr, Inhabited

namespace ElementHead

def name (h : ElementHead) : Bytes := h.start.name.value

def isSelfClosing (h : ElementHead) : Bool := h.start.isEmpty

def find? (h : ElementHead) (key : Key) : Option RawAttribute :=
  (h.attributes.find? fun a => a.key == key).map (·.raw)

end ElementHead

/-- A node of the element tree. An element without an end tag has no children. -/
inductive Node where
  | text (token : Token)
  | element (head : ElementHead) (children : List Node) (stop : Option Tag)
  deriving Repr, Inhabited

mutual

def Node.source : Node → Bytes
  | .text t => t.value
  | .element head children stop =>
    head.start.text ++ serialize children ++
      (match stop with
      | some tag => tag.text
      | none => [])

def serialize : List Node → Bytes
  | [] => []
  | n :: ns => n.source ++ serialize ns

end

mutual

def Node.textCount : Node → Nat
  | .text _ => 1
  | .element _ children _ => textCounts children

def textCounts : List Node → Nat
  | [] => 0
  | n :: ns => n.textCount + textCounts ns

end

mutual

def Node.heads : Node → List ElementHead
  | .text _ => []
  | .element head children _ => head :: elementHeads children

def elementHeads : List Node → List ElementHead
  | [] => []
  | n :: ns => n.heads ++ elementHeads ns

end

end PageTemplate.Markup
