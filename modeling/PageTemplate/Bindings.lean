import PageTemplate.JsonText
import PageTemplate.Scope

/-!
Variables given as JSON. Numbers become doubles, lists and objects become lists and maps of any values,
and of repeated keys the last one counts.
-/

namespace PageTemplate

mutual

/-- The value that templates see. A number that no double comes near to has none. -/
def JsonValue.toValue? : JsonValue → Option Value
  | .null => some .nil
  | .bool b => some (.bool b)
  | .number negative magnitude =>
    let f := Decimal.toDouble negative magnitude
    if Decimal.isInf f then none else some (.double f)
  | .text s => some (.text s)
  | .array items => (JsonValue.toValues? items).map .list
  | .object members => (JsonValue.toVars? members).map fun vs => .dict (Assoc.ofEntries vs)

def JsonValue.toValues? : List JsonValue → Option (List Value)
  | [] => some []
  | v :: vs => do
    let x ← v.toValue?
    let xs ← JsonValue.toValues? vs
    return x :: xs

def JsonValue.toVars? : List (Bytes × JsonValue) → Option Vars
  | [] => some []
  | (k, v) :: ms => do
    let x ← v.toValue?
    let xs ← JsonValue.toVars? ms
    return (k, x) :: xs

end

def bindingsOfText? (s : Bytes) : Option Vars :=
  match JsonText.read? s with
  | some .null => some []
  | some (.object members) => (JsonValue.toVars? members).map Assoc.ofEntries
  | _ => none

end PageTemplate
