import PageTemplate.Decimal.Layout
import PageTemplate.Value

/-!
Displayed values: the text of a value of any type in reports and inside other values. A failure shows its message and a
value with a `String` method what it gives; lists, maps and records show their parts, maps in the order of their keys. A
pointer shows what it points to, and inside another value an address.
-/

namespace PageTemplate.Value

def address : Bytes := utf8 "0xc000000000"

def ownDisplay? (v : Value) : Option Bytes :=
  match v.textMethod? (utf8 "Error") with
  | some s => some s
  | none => v.textMethod? (utf8 "String")

/-- A complex number: both parts in parentheses, the second with its sign. -/
def displayComplex (re im : Float) : Bytes :=
  let second := Decimal.displayDouble im
  let sign :=
    match second with
    | c :: _ => if c = Byte.minus || c = Byte.plus then [] else [Byte.plus]
    | [] => []
  utf8 "(" ++ Decimal.displayDouble re ++ sign ++ second ++ utf8 "i)"

def bracketed (lead : String) (parts : List Bytes) (tail : String) : Bytes :=
  utf8 lead ++ Bytes.join [Byte.space] parts ++ utf8 tail

def displayKey : MapKey → Bytes
  | .text s => s
  | .int n => Bytes.ofInt n

def sortEntries {α : Type} (entries : List (MapKey × α)) : List (MapKey × α) :=
  entries.mergeSort fun a b => keyLe a.1 b.1

def displayEntries (shown : List (MapKey × Bytes)) : Bytes :=
  bracketed "map[" ((sortEntries shown).map fun e => displayKey e.1 ++ utf8 ":" ++ e.2) "]"

mutual

def displayInner : Value → Bytes
  | nil => utf8 "<nil>"
  | bool b => utf8 (if b then "true" else "false")
  | text s => s
  | markup s => s
  | int _ n => Bytes.ofInt n
  | double f => Decimal.displayDouble f
  | single f => Decimal.displaySingle f
  | complex re im => displayComplex re im
  | bytes s => bracketed "[" (s.map fun b => Bytes.ofNat b.toNat) "]"
  | list items => bracketed "[" (displayItems items) "]"
  | slice _ items => bracketed "[" (displayItems items) "]"
  | array items => bracketed "[" (displayItems items) "]"
  | map _ _ entries => displayEntries (displayMap entries)
  | record type fields methods =>
    (ownDisplay? (record type fields methods)).getD (bracketed "\x7b" (displayFields fields) "\x7d")
  | pointer target => (ownDisplay? (pointer target)).getD address
  | nullPointer => utf8 "<nil>"
  | absent empty => displayInner empty
  | v => (ownDisplay? v).getD address

def displayItems : List Value → List Bytes
  | [] => []
  | v :: vs => displayInner v :: displayItems vs

def displayMap : List (MapKey × Value) → List (MapKey × Bytes)
  | [] => []
  | (k, v) :: es => (k, displayInner v) :: displayMap es

def displayFields : List (Field × Value) → List Bytes
  | [] => []
  | (_, v) :: fs => displayInner v :: displayFields fs

end

def isComposite : Value → Bool
  | bytes _ | list _ | slice _ _ | array _ | map _ _ _ | record _ _ _ | absent _ => true
  | _ => false

def display (v : Value) : Bytes :=
  match v with
  | pointer target =>
    match ownDisplay? v with
    | some s => s
    | none => if target.isComposite then Byte.ampersand :: displayInner target else address
  | v => displayInner v

end PageTemplate.Value
