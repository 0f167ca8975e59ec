import PageTemplate.Markup.Tree
import PageTemplate.Markup.Token.Lexer

/-!
Reading the element tree off the tokens. The reader keeps the open elements, innermost first, each with the nodes before
it, and the nodes read since the innermost was opened. An end tag closes the nearest open element of its name, passing
over void elements only. An element that is passed over, or still open at the end, keeps no children.
-/

namespace PageTemplate.Markup

/-- An element whose end tag has not been read. -/
structure OpenElement where
  head : ElementHead
  /-- The nodes before the element in its parent, last first. -/
  before : List Node
  /-- The namespace bindings outside the element. -/
  outer : Bindings

namespace OpenElement

def abandon (o : OpenElement) (after : List Node) : List Node :=
  after ++ .element o.head [] none :: o.before

end OpenElement

/-- The reader between two tokens. -/
structure TreeState where
  opened : List OpenElement := []
  /-- The nodes read since the innermost open element, last first. -/
  nodes : List Node := []
  bindings : Bindings := Bindings.initial

/-- The bindings inside a tag: those outside with the tag's own declarations added in order. -/
def Bindings.declare (b : Bindings) (attributes : List RawAttribute) : Bindings :=
  attributes.foldl (fun b a =>
    match declaredLead? a.name.value with
    | some lead => b.insert lead a.value.value
    | none => b) b

def ElementHead.ofTag (b : Bindings) (tag : Tag) : ElementHead :=
  let key := b.elementKey tag.name.value
  { start := tag, key
    attributes := tag.attributes.map fun a => ⟨b.attributeKey key.space a.name.value, a⟩ }

/-- Closes the nearest open element of the tag's name. The result is what stays open, the nodes read
there, last first, and the bindings outside the closed element. -/
def closeElement? (tag : Tag) : List OpenElement → List Node → Option TreeState
  | [], _ => none
  | o :: opened, inside =>
    if o.head.name = tag.name.value then
      some ⟨opened, .element o.head inside.reverse (some tag) :: o.before, o.outer⟩
    else if isVoidElement o.head.name then closeElement? tag opened (o.abandon inside)
    else none

/-- The reader after one more token. -/
def TreeState.step (st : TreeState) (tok : Token) : Except Failure TreeState :=
  match Tag.ofToken? tok with
  | none => .ok { st with nodes := .text tok :: st.nodes }
  | some tag =>
    match tok.kind with
    | .endTag =>
      match closeElement? tag st.opened st.nodes with
      | some st' => .ok st'
      | none => .error (tok.fault .parse (utf8 "Unexpected end tag"))
    | .emptyTag =>
      let head := ElementHead.ofTag (st.bindings.declare tag.attributes) tag
      .ok { st with nodes := .element head [] none :: st.nodes }
    | _ =>
      let inner := st.bindings.declare tag.attributes
      .ok ⟨⟨ElementHead.ofTag inner tag, st.nodes, st.bindings⟩ :: st.opened, [], inner⟩

def TreeState.finish (st : TreeState) : List Node :=
  (st.opened.foldl (fun nodes o => o.abandon nodes) st.nodes).reverse

def parseTokens (tokens : List Token) : Except Failure (List Node) :=
  (tokens.foldlM TreeState.step {}).map TreeState.finish

def parse (source filename : Bytes) : Except Failure (List Node) := parseTokens (tokenize source filename)

end PageTemplate.Markup
