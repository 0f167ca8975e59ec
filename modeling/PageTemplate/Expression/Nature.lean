import PageTemplate.Expression.Term

/-!
What is known of the types of terms before they are evaluated. Literals and the results of operators have known natures;
of variables and calls nothing is known, and they fit anywhere. A value read out of another one is of any type: a term
of a known type stands for both when it is one of two alternatives.
-/

namespace PageTemplate.Expression

/-- What is known of the type of a term. -/
inductive Nature where
  /-- Nothing is known. -/
  | unknown
  /-- A value of any type. -/
  | any
  | nil
  | bool
  | int
  | float
  | text
  | list (elem : Nature)
  /-- A list whose elements are texts by its own type. -/
  | texts
  | dict
  /-- A function of the language itself. -/
  | function
  deriving DecidableEq, Repr, Inhabited

namespace Nature

def isUnknown : Nature → Bool
  | unknown | any => true
  | _ => false

def isNumber : Nature → Bool
  | int | float => true
  | _ => false

def isList : Nature → Bool
  | list _ | texts => true
  | _ => false

def element : Nature → Nature
  | list e => e
  | texts => text
  | _ => unknown

/-- Whether two natures are of one kind: all lists are, and so are nothing and what nothing is known of. -/
def sameKind (a b : Nature) : Bool :=
  (a.isList && b.isList) || ((a == unknown || a == nil) && (b == unknown || b == nil)) || a == b

/-- Whether a value of the first nature can always stand where one of the second is wanted. -/
def assignable : Nature → Nature → Bool
  | unknown, _ | _, unknown => false
  | _, any => true
  | nil, _ => false
  | list _, list _ => true
  | a, b => a == b

def either (a b : Nature) : Nature :=
  if a == nil then b else if b == nil then a else if assignable a b then a else unknown

/-- Whether one operand satisfies a test and the other is not known to fail it. -/
def fits (p : Nature → Bool) (a b : Nature) : Bool := (a.isUnknown || p a) && (b.isUnknown || p b)

def comparable (a b : Nature) : Bool :=
  a.isUnknown || b.isUnknown || a == nil || b == nil || (a.isNumber && b.isNumber) || sameKind a b

/-- Whether two operands are both numbers or both texts, as far as is known. -/
def fitsNumbersOrTexts (a b : Nature) : Bool := fits isNumber a b || fits (· == text) a b

def combined (a b : Nature) : Nature :=
  if a.isUnknown || b.isUnknown then unknown else if a == int && b == int then int else float

def ofItems : List Nature → Nature
  | [] => list unknown
  | n :: ns => list (if ns.all (sameKind n) then ns.getLastD n else any)

def member? (base key : Nature) (named : Bool) : Option Nature :=
  match base with
  | unknown | any => some unknown
  | dict => if key.isUnknown || key == text then some any else none
  | list _ | texts => if !named && (key.isUnknown || key == int) then some base.element else none
  | _ => none

end Nature

open Nature in
def BinaryOp.nature? (op : BinaryOp) (a b : Nature) : Option Nature :=
  let when (ok : Bool) (n : Nature) : Option Nature := if ok then some n else none
  match op with
  | .eq | .ne => when (comparable a b) .bool
  | .or | .and => when (fits (· == .bool) a b) .bool
  | .lt | .gt | .le | .ge => when (fitsNumbersOrTexts a b) .bool
  | .add =>
    when (fitsNumbersOrTexts a b) (if a == .text && b == .text then .text else combined a b)
  | .sub | .mul => when (fits isNumber a b) (combined a b)
  | .div | .pow => when (fits isNumber a b) .float
  | .mod => when (fits (· == .int) a b) .int
  | .mem =>
    if b == .dict then when (a.isUnknown || a == .text) .bool
    else if b.isList then when (comparable a b.element) .bool
    else when (b.isUnknown || (a.isUnknown && b == .text)) .bool
  | .contains | .startsWith | .endsWith => when (fits (· == .text) a b) .bool
  | .range => when (fits (· == .int) a b) (.list .int)
  | .coalesce => some (if a == .nil then b else if b == .nil || assignable b a then a else .unknown)

def UnaryOp.nature? (op : UnaryOp) (a : Nature) : Option Nature :=
  match op with
  | .not => if a.isUnknown || a == .bool then some .bool else none
  | .negate | .plus => if a.isUnknown then some .unknown else if a.isNumber then some a else none

namespace Builtin

/-- The nature of what a function of the language gives for arguments of known natures. Those with a
predicate get the nature of what the predicate gives as their last argument. -/
def nature? (b : Builtin) (args : List Nature) : Option Nature :=
  let text (n : Nature) : Bool := n.isUnknown || n == .text
  let int (n : Nature) : Bool := n.isUnknown || n == .int
  match b, args with
  | .len, [a] => if a.isUnknown || a.isList || a == .text || a == .dict then some .int else none
  | .upper, [a] | .lower, [a] => if text a then some .text else none
  | .trim, [a] => if text a then some .text else none
  | .trim, [a, c] => if text a && text c then some .text else none
  | .split, [a, s] => if text a && text s then some .texts else none
  | .split, [a, s, n] => if text a && text s && int n then some .texts else none
  | .join, [a] => if collection a then some .text else none
  | .join, [a, s] => if collection a && text s then some .text else none
  | .first, [a] | .last, [a] => if a == .texts then some .text else if collection a then some .any else none
  | .map, [a, p] => if collection a && p != .nil then some (.list p) else none
  | .filter, [a, p] =>
    if collection a && test p then some (.list (if a.isUnknown then .any else a.element)) else none
  | .all, [a, p] | .any, [a, p] => if collection a && test p then some .bool else none
  | .count, [a] => if collection a then some .int else none
  | .count, [a, p] => if collection a && test p then some .int else none
  | _, _ => none
where
  collection (n : Nature) : Bool := n.isUnknown || n.isList
  test (n : Nature) : Bool := n.isUnknown || n == .bool

end Builtin

end PageTemplate.Expression
