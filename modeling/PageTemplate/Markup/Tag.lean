import PageTemplate.Markup.Token
import PageTemplate.Markup.Name

/-!
Tags cut into their parts. A tag is its opening bytes, its name, its attributes as written and its
ending; writing the parts one after another gives the source text back.
-/

namespace PageTemplate.Markup

/-- An attribute as written: blanks, name, equals sign with the blanks around it, quote and value. -/
structure RawAttribute where
  space : Bytes
  name : Token
  eq : Bytes
  quote : Bytes
  value : Token
  deriving DecidableEq, Repr, Inhabited

namespace RawAttribute

def hasValue (a : RawAttribute) : Bool := !a.eq.isEmpty

def text (a : RawAttribute) : Bytes :=
  a.space ++ a.name.value ++ a.eq ++ a.quote ++ a.value.value ++ a.quote

end RawAttribute

/-- A start, empty or end tag in its parts. -/
structure Tag where
  token : Token
  opening : Bytes
  name : Token
  attributes : List RawAttribute
  ending : Bytes
  deriving DecidableEq, Repr, Inhabited

namespace Tag

def text (t : Tag) : Bytes :=
  t.opening ++ t.name.value ++ t.attributes.flatMap RawAttribute.text ++ t.ending

def isEmpty (t : Tag) : Bool := (utf8 "/>").isSuffixOf t.ending

end Tag

/-- The length of an unquoted attribute value: it runs to a blank, a `>`, a quote or a `/>`. -/
def bareValueLength : Bytes → Nat
  | [] => 0
  | c :: s =>
    if Byte.isBlank c || c = Byte.greater || Byte.isQuote c then 0
    else if c = Byte.slash && s.head? = some Byte.greater then 0
    else bareValueLength s + 1

/-- The part of an attribute after its name. -/
structure AttributeValue where
  /-- The equals sign with the blanks around it, empty when there is none. -/
  eq : Bytes
  /-- The quote written on both sides of the value. -/
  quote : Bytes
  value : Bytes
  deriving Repr, Inhabited

namespace AttributeValue

def lead (v : AttributeValue) : Nat := v.eq.length + v.quote.length

def size (v : AttributeValue) : Nat := v.lead + v.value.length + v.quote.length

end AttributeValue

/-- The value that follows an attribute name, if it is well formed. -/
def attributeValue? (s : Bytes) : Option AttributeValue :=
  let before := s.takeWhile Byte.isBlank
  match s.dropWhile Byte.isBlank with
  | [] => some ⟨[], [], []⟩
  | c :: s =>
    if c ≠ Byte.equals then some ⟨[], [], []⟩
    else
      let eq := before ++ c :: s.takeWhile Byte.isBlank
      match s.dropWhile Byte.isBlank with
      | [] => none
      | q :: s =>
        if Byte.isQuote q then (Bytes.breakAt? q s).map fun p => ⟨eq, [q], p.1⟩
        else
          let n := bareValueLength (q :: s)
          if n = 0 then none else some ⟨eq, [], (q :: s).take n⟩

/-- What follows the blanks and a name that is not empty is shorter than the text. -/
theorem length_after_name {p q : UInt8 → Bool} {s : Bytes} (h : (s.dropWhile p).takeWhile q ≠ []) :
    ((s.dropWhile p).dropWhile q).length < s.length := by
  have h₁ := congrArg List.length (List.takeWhile_append_dropWhile (p := p) (l := s))
  have h₂ := congrArg List.length (List.takeWhile_append_dropWhile (p := q) (l := s.dropWhile p))
  have h₃ := List.length_pos_iff.2 h
  simp only [List.length_append] at h₁ h₂
  omega

/-- The attributes and the ending of a tag, read from its bytes `s` at offset `i`. Attributes are
separated by blanks and the ending is `>` or `/>`; an end tag has no attributes. -/
def readAttributes? (tok : Token) (i : Nat) (s : Bytes) : Option (List RawAttribute × Bytes) :=
  let space := s.takeWhile Byte.isBlank
  let rest := s.dropWhile Byte.isBlank
  if rest = utf8 ">" || rest = utf8 "/>" then some ([], s)
  else if space.isEmpty || tok.kind = .endTag then none
  else
    let name := rest.takeWhile isAttributeNameByte
    if _hn : name = [] then none
    else
      let start := i + space.length
      let after := rest.dropWhile isAttributeNameByte
      match attributeValue? after with
      | none => none
      | some v =>
        let nameEnd := start + name.length
        let attr : RawAttribute :=
          { space, name := tok.slice start nameEnd, eq := v.eq, quote := v.quote
            value := tok.slice (nameEnd + v.lead) (nameEnd + v.lead + v.value.length) }
        (readAttributes? tok (nameEnd + v.size) (after.drop v.size)).map fun r =>
          (attr :: r.1, r.2)
termination_by s.length
decreasing_by
  rw [List.length_drop]
  exact Nat.lt_of_le_of_lt (Nat.sub_le _ _) (length_after_name _hn)

def Tag.ofToken? (tok : Token) : Option Tag :=
  let opening? : Option Bytes :=
    match tok.kind with
    | .startTag | .emptyTag => some (utf8 "<")
    | .endTag => some (utf8 "</")
    | _ => none
  opening?.bind fun opening =>
    let s := tok.value.drop opening.length
    let name := s.takeWhile isNameByte
    let nameEnd := opening.length + name.length
    if name.isEmpty then none
    else
      (readAttributes? tok nameEnd (s.dropWhile isNameByte)).map fun r =>
        { token := tok, opening, name := tok.slice opening.length nameEnd, attributes := r.1
          ending := r.2 }

end PageTemplate.Markup
