import PageTemplate.Loop
import PageTemplate.Value.Display

/-!
The cells behind values with identity: cursors, loops, tables of loops by name, channels, and the number
that the host keeps, such as the count of calls. A source of any type is looped over through a cursor.
-/

namespace PageTemplate

/-- The contents of the cells, by number. -/
structure Heap where
  cursors : List Cursor := []
  loops : List Loop := []
  tables : List (Assoc Nat) := []
  channels : List (List Value) := []
  calls : Nat := 0
  deriving Inhabited

namespace Heap

def withCalls (h : Heap) (n : Nat) : Heap := { h with calls := n }

def newCursor (h : Heap) (items : List Value) : Nat × Heap :=
  (h.cursors.length, { h with cursors := h.cursors ++ [{ items }] })

def newLoop (h : Heap) (cursor : Nat) : Nat × Heap :=
  (h.loops.length, { h with loops := h.loops ++ [{ cursor }] })

def newTable (h : Heap) : Nat × Heap := (h.tables.length, { h with tables := h.tables ++ [[]] })

def newChannel (h : Heap) (items : List Value) : Nat × Heap :=
  (h.channels.length, { h with channels := h.channels ++ [items] })

def cursor (h : Heap) (id : Nat) : Cursor := h.cursors.getD id default

def loop (h : Heap) (id : Nat) : Loop := h.loops.getD id default

def table (h : Heap) (id : Nat) : Assoc Nat := h.tables.getD id []

def setTableEntry (h : Heap) (id : Nat) (name : Bytes) (loop : Option Nat) : Heap :=
  { h with tables := h.tables.modify id (·.set? name loop) }

def nextOf (h : Heap) (id : Nat) : Option Value × Heap :=
  match (h.cursor id).next? with
  | some (v, c) => (some v, { h with cursors := h.cursors.set id c })
  | none => (none, h)

/-- The next item of the cursor that a loop follows; the loop advances with it. -/
def advance (h : Heap) (id : Nat) : Option Value × Heap :=
  let l := h.loop id
  match h.nextOf l.cursor with
  | (some v, h) => (some v, { h with loops := h.loops.set id (l.advance (h.cursor l.cursor).remaining) })
  | (none, h) => (none, h)

/-- The items of a channel, which is empty afterwards. -/
def drain (h : Heap) (id : Nat) : List Value × Heap :=
  (h.channels.getD id [], { h with channels := h.channels.set id [] })

mutual

/-- The value with cursors and tables of loops written out as the data that they hold now. -/
def resolve (h : Heap) : Value → Value
  | .cursor id =>
    let c := h.cursor id
    .pointer (.record (utf8 "runtime.sliceIterator")
      [({ name := utf8 "items", exported := false }, .list c.items),
        ({ name := utf8 "pos", exported := false }, .ofInt c.position)] [])
  | .loop id => .pointer (.record (utf8 "runtime.RepeatItem") (h.loop id).fields [])
  | .loops id => .map .text .any ((h.table id).map fun e => (.text e.1, .loop e.2))
  | .list items => .list (h.resolveItems items)
  | .slice elem items => .slice elem (h.resolveItems items)
  | .array items => .array (h.resolveItems items)
  | .map key elem entries => .map key elem (h.resolveEntries entries)
  | .pointer target => .pointer (h.resolve target)
  | v => v

def resolveItems (h : Heap) : List Value → List Value
  | [] => []
  | v :: vs => h.resolve v :: h.resolveItems vs

def resolveEntries (h : Heap) : List (MapKey × Value) → List (MapKey × Value)
  | [] => []
  | (k, v) :: es => (k, h.resolve v) :: h.resolveEntries es

end

/-- The characters of a text, each as a text. -/
def characters (s : Bytes) : List Value := (Text.glyphs s).map fun g => .text (Text.encodeChar g.toChar)

def mapItems (key : KeyType) (entries : List (MapKey × Value)) (pairs : Bool) : List Value :=
  let sorted := entries.mergeSort fun a b => Bytes.le (Value.displayKey a.1) (Value.displayKey b.1)
  sorted.map fun e => if pairs then .list [.ofKey key e.1, e.2] else .ofKey key e.1

/-- The cursor over the items of a source; a map gives its keys, or pairs of keys and values. -/
def iterate (h : Heap) (pairs : Bool) : Value → Except Failure (Nat × Heap)
  | .nil => .ok (h.newCursor [])
  | .cursor id => .ok (id, h)
  | .list items | .slice _ items | .array items => .ok (h.newCursor items)
  | .bytes s => .ok (h.newCursor (s.map fun b => .int .uint8 b.toNat))
  | .text s => .ok (h.newCursor (characters s))
  | .map key _ entries => .ok (h.newCursor (mapItems key entries pairs))
  | .loops id =>
    .ok (h.newCursor (mapItems .text ((h.table id).map fun e => (.text e.1, .loop e.2)) pairs))
  | .channel id =>
    let (items, h) := h.drain id
    .ok (h.newCursor items)
  | .nullPointer => .ok (h.newCursor [])
  | .absent empty => h.iterate pairs empty
  | .pointer target => h.iterate pairs target
  | v =>
    let name := v.typeName
    let name := if name.head? = some Byte.star then name.drop 1 else name
    .error (.type (name ++ utf8 " object is not iterable"))

end Heap

/-- The parts of a sequence that must have exactly `n`. -/
def unpack (item : Value) (n : Int) : Except Failure (List Value) :=
  let parts (vs : List Value) : Except Failure (List Value) :=
    if vs.length = n then .ok vs
    else .error (.value (utf8 "expected " ++ Bytes.ofInt n ++ utf8 " values to unpack, got " ++ Bytes.ofNat vs.length))
  match item with
  | .list vs | .slice _ vs | .array vs | .absent (.slice _ vs) => parts vs
  | .bytes s => parts (s.map fun b => .int .uint8 b.toNat)
  | v => .error (.type (utf8 "cannot unpack non-sequence " ++ v.typeName))

end PageTemplate
