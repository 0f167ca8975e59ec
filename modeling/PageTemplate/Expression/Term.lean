import PageTemplate.Bytes

/-!
Terms of the expression language. Reading a member is one operation for `a.b` and `a[b]`; a chain
marks the part of a term that is given up as a whole when an optional member is read off nothing.
-/

namespace PageTemplate.Expression

/-- The 64-bit integer congruent to a number. Integers of the language are kept in this range. -/
def wrap (n : Int) : Int := Int.bmod n 0x10000000000000000

inductive UnaryOp where
  | not
  | negate
  | plus
  deriving DecidableEq, Repr, Inhabited

inductive BinaryOp where
  | or
  | and
  | eq
  | ne
  | lt
  | gt
  | le
  | ge
  | mem
  | contains
  | startsWith
  | endsWith
  | range
  | add
  | sub
  | mul
  | div
  | mod
  | pow
  | coalesce
  deriving DecidableEq, Repr, Inhabited

/-- The functions of the language itself. -/
inductive Builtin where
  | len
  | upper
  | lower
  | trim
  | split
  | join
  | first
  | last
  | map
  | filter
  | all
  | any
  | count
  deriving DecidableEq, Repr, Inhabited

/-- Whether a function of the language applies its last argument to elements. -/
def Builtin.isLoop : Builtin → Bool
  | map | filter | all | any | count => true
  | _ => false

inductive Term where
  | nil
  | bool (b : Bool)
  | int (n : Int)
  | float (f : Float)
  | text (s : Bytes)
  | name (n : Bytes)
  /-- The element that a predicate is applied to. -/
  | element
  | list (items : List Term)
  | dict (pairs : List (Term × Term))
  | unary (op : UnaryOp) (t : Term)
  | binary (op : BinaryOp) (l r : Term)
  | member (base key : Term) (optional called : Bool)
  | chain (t : Term)
  | slice (base : Term) (lo hi : Option Term)
  | call (callee : Term) (args : List Term)
  | builtin (b : Builtin) (args : List Term)
  | conditional (test yes no : Term)
  | binding (name : Bytes) (value body : Term)
  | sequence (ts : List Term)
  deriving Inhabited

def Builtin.names : List (Bytes × Builtin) :=
  [(utf8 "len", .len), (utf8 "upper", .upper), (utf8 "lower", .lower), (utf8 "trim", .trim), (utf8 "split", .split),
    (utf8 "join", .join), (utf8 "first", .first), (utf8 "last", .last), (utf8 "map", .map), (utf8 "filter", .filter),
    (utf8 "all", .all), (utf8 "any", .any), (utf8 "count", .count)]

/-- Every name that is taken by a function of the language, whether or not it is provided here. -/
def reservedFunctions : List Bytes :=
  Builtin.names.map (·.1) ++
    [utf8 "none", utf8 "one", utf8 "sum", utf8 "find", utf8 "findIndex", utf8 "findLast", utf8 "findLastIndex",
      utf8 "groupBy", utf8 "sortBy", utf8 "reduce", utf8 "type", utf8 "abs", utf8 "ceil", utf8 "floor", utf8 "round",
      utf8 "int", utf8 "float", utf8 "string", utf8 "trimPrefix", utf8 "trimSuffix", utf8 "splitAfter", utf8 "replace",
      utf8 "indexOf", utf8 "lastIndexOf", utf8 "hasPrefix", utf8 "hasSuffix", utf8 "max", utf8 "min", utf8 "mean",
      utf8 "median", utf8 "toJSON", utf8 "fromJSON", utf8 "toBase64", utf8 "fromBase64", utf8 "now", utf8 "duration",
      utf8 "date", utf8 "timezone", utf8 "get", utf8 "take", utf8 "keys", utf8 "values", utf8 "toPairs",
      utf8 "fromPairs", utf8 "reverse", utf8 "uniq", utf8 "concat", utf8 "flatten", utf8 "sort", utf8 "bitand",
      utf8 "bitor", utf8 "bitxor", utf8 "bitnand", utf8 "bitshl", utf8 "bitshr", utf8 "bitushr"]

def memberFunction : Bytes := utf8 "__fetch"

/-- The name of the table of loops. Called like a function it does not count as a variable. -/
def loopsName : Bytes := utf8 "repeat"

namespace Term

mutual

def names : Term → List Bytes
  | name n => [n]
  | list items => namesOf items
  | dict pairs => namesOfPairs pairs
  | unary _ t => t.names
  | binary _ l r => l.names ++ r.names
  | member base key _ _ => base.names ++ key.names
  | chain t => t.names
  | slice base lo hi => base.names ++ namesOfOption lo ++ namesOfOption hi
  | call (name n) args => (if n = loopsName then [] else [n]) ++ namesOf args
  | call callee args => callee.names ++ namesOf args
  | builtin _ args => namesOf args
  | conditional test yes no => test.names ++ yes.names ++ no.names
  | binding _ value body => value.names ++ body.names
  | sequence ts => namesOf ts
  | _ => []

def namesOf : List Term → List Bytes
  | [] => []
  | t :: ts => t.names ++ namesOf ts

def namesOfPairs : List (Term × Term) → List Bytes
  | [] => []
  | (k, v) :: ps => k.names ++ v.names ++ namesOfPairs ps

def namesOfOption : Option Term → List Bytes
  | none => []
  | some t => t.names

end

mutual

def declared : Term → List Bytes
  | list items => declaredIn items
  | dict pairs => declaredInPairs pairs
  | unary _ t => t.declared
  | binary _ l r => l.declared ++ r.declared
  | member base key _ _ => base.declared ++ key.declared
  | chain t => t.declared
  | slice base lo hi => base.declared ++ declaredInOption lo ++ declaredInOption hi
  | call callee args => callee.declared ++ declaredIn args
  | builtin _ args => declaredIn args
  | conditional test yes no => test.declared ++ yes.declared ++ no.declared
  | binding n value body => n :: (value.declared ++ body.declared)
  | sequence ts => declaredIn ts
  | _ => []

def declaredIn : List Term → List Bytes
  | [] => []
  | t :: ts => t.declared ++ declaredIn ts

def declaredInPairs : List (Term × Term) → List Bytes
  | [] => []
  | (k, v) :: ps => k.declared ++ v.declared ++ declaredInPairs ps

def declaredInOption : Option Term → List Bytes
  | none => []
  | some t => t.declared

end

/-- How many members of a chain are read from its first optional one on. -/
def links : Term → Nat
  | member base _ optional _ => if base.links > 0 then base.links + 1 else if optional then 1 else 0
  | call callee _ => callee.links
  | _ => 0

mutual

/-- The number of parts that a term is written with. Every member read in a chain counts twice, and so does a
predicate. -/
def size : Term → Nat
  | list items => 1 + sizeOfAll items
  | dict pairs => 1 + sizeOfPairs pairs
  | unary _ t => 1 + t.size
  | binary _ l r => 1 + l.size + r.size
  | member base key _ _ => 1 + base.size + key.size
  | chain t => t.links + t.size
  | slice base lo hi => 1 + base.size + sizeOfOption lo + sizeOfOption hi
  | call callee args => 1 + callee.size + sizeOfAll args
  | builtin b args => 1 + sizeOfAll args + (if b.isLoop && args.length = 2 then 1 else 0)
  | conditional test yes no => 1 + test.size + yes.size + no.size
  | binding _ value body => 1 + value.size + body.size
  | sequence ts => 1 + sizeOfAll ts
  | _ => 1

def sizeOfAll : List Term → Nat
  | [] => 0
  | t :: ts => t.size + sizeOfAll ts

def sizeOfPairs : List (Term × Term) → Nat
  | [] => 0
  | (k, v) :: ps => 1 + k.size + v.size + sizeOfPairs ps

def sizeOfOption : Option Term → Nat
  | none => 0
  | some t => t.size

end

def sizeLimit : Nat := 10000

def freeNames (t : Term) : List Bytes :=
  Bytes.sort ((t.names.filter fun n => !t.declared.contains n).eraseDups)

end Term

end PageTemplate.Expression
