import PageTemplate.Numeral
import PageTemplate.Text.LetterCase
import PageTemplate.Value

/-!
Loops over the items of a source. A cursor hands out items and knows how many are left. A loop follows a
cursor and describes where it stands: the description is worked out anew whenever the loop advances,
from the length of the source and the number of items left.
-/

namespace PageTemplate

/-- Items being handed out one after the other. -/
structure Cursor where
  items : List Value
  position : Nat := 0
  deriving Inhabited

namespace Cursor

def remaining (c : Cursor) : Nat := c.items.length - c.position

def next? (c : Cursor) : Option (Value × Cursor) :=
  (c.items[c.position]?).map fun v => (v, { c with position := c.position + 1 })

end Cursor

/-- Where a loop stands: the number of the item, the number of all items, and how many are to come. -/
structure LoopPosition where
  index : Nat
  length : Nat
  remaining : Nat
  deriving DecidableEq, Repr, Inhabited

/-- A loop over the items of a cursor, without a position before its first item. -/
structure Loop where
  cursor : Nat
  position : Option LoopPosition := none
  deriving DecidableEq, Repr, Inhabited

namespace Loop

/-- The loop after its cursor has handed out an item and has `remaining` more. The length is fixed by
the first item. -/
def advance (l : Loop) (remaining : Nat) : Loop :=
  let length :=
    match l.position with
    | some p => p.length
    | none => remaining + 1
  { l with position := some ⟨length - remaining - 1, length, remaining⟩ }

def atEnd (l : Loop) : Bool :=
  match l.position with
  | some p => p.remaining == 0
  | none => false

/-- The names under which a loop describes itself, with the record fields that hold the descriptions. -/
def attributeNames : List (Bytes × Bytes) :=
  [(utf8 "index", utf8 "Index"), (utf8 "number", utf8 "Number"), (utf8 "even", utf8 "Even"),
    (utf8 "odd", utf8 "Odd"), (utf8 "start", utf8 "Start"), (utf8 "end", utf8 "End"),
    (utf8 "length", utf8 "Length"), (utf8 "parity", utf8 "Parity"), (utf8 "letter", utf8 "LowerLetter"),
    (utf8 "Letter", utf8 "CapitalLetter"), (utf8 "roman", utf8 "LowerRoman"), (utf8 "Roman", utf8 "CapitalRoman")]

/-- What the loop says under each of its names, in the order of `attributeNames`. -/
def descriptions (l : Loop) : List Value :=
  match l.position with
  | none =>
    [.ofInt (-1), .ofInt 0, .bool false, .bool false, .bool false, .bool false, .ofInt 0, .text [], .text [],
      .text [], .text [], .text []]
  | some p =>
    let even := p.index % 2 == 0
    let number := p.index + 1
    [.ofInt p.index, .ofInt number, .bool even, .bool !even, .bool (p.index == 0), .bool (p.remaining == 0),
      .ofInt p.length, .text (utf8 (if even then "even" else "odd")), .text (Numeral.letters number),
      .text (Text.upper (Numeral.letters number)), .text (Text.lower (Numeral.roman number)),
      .text (Numeral.roman number)]

def attributes (l : Loop) : Assoc Value := (attributeNames.map (·.1)).zip l.descriptions

def describe (l : Loop) (name : Bytes) : Except Failure Value :=
  match l.attributes.get? name with
  | some v => .ok v
  | none => .error (.lookup name (utf8 "repeat item has no attribute " ++ name))

/-- The fields of the loop read as a record: each is known by its own name and by the name of what it
describes. -/
def fields (l : Loop) : List (Field × Value) :=
  (attributeNames.zip l.descriptions).map fun e => ({ name := e.1.2, tag := e.1.1 }, e.2)

end Loop

end PageTemplate
