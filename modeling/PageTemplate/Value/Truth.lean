import PageTemplate.Decimal.Layout
import PageTemplate.Value

/-!
Truth and equality of values. A value is true unless it is the zero or the empty value of its type.
Two values are the same if they have one type and the same parts; for matching, numbers of different
types also compare by value, as double-precision floats.
-/

namespace PageTemplate

def Failure.same : Failure → Failure → Bool
  | .undefined a, .undefined b => a == b
  | .lookup k a, .lookup l b => k == l && a == b
  | .type a, .type b => a == b
  | .value a, .value b => a == b
  | .translation m a, .translation n b => m == n && a == b
  | .notFound a, .notFound b => a == b
  | .plain a, .plain b => a == b
  | .wrapped c a, .wrapped d b => c == d && a.same b
  | .expression none, .expression none => true
  | .expression (some a), .expression (some b) => a.same b
  | .file o p a, .file o' p' b => o == o' && p == p' && a == b
  | .fault k s a none, .fault k' s' b none => k == k' && s == s' && a == b
  | .fault k s a (some r), .fault k' s' b (some r') => k == k' && s == s' && a == b && r.same r'
  | .located s a, .located s' b => s == s' && a.same b
  | .report t a, .report t' b => t == t' && a.same b
  | _, _ => false

namespace Value

/-- Whether the value is not the zero of its type. -/
def truthy : Value → Bool
  | nil => false
  | bool b => b
  | text s | markup s | bytes s => !s.isEmpty
  | int _ n => n != 0
  | double f | single f => f != 0
  | complex re im => re != 0 || im != 0
  | list items | slice _ items | array items => !items.isEmpty
  | map _ _ entries => !entries.isEmpty
  | nullPointer | absent _ => false
  | failures recorded => !recorded.isEmpty
  | _ => true

def number? : Value → Option Float
  | int _ n => some (Float.ofInt n)
  | double f | single f => some f
  | _ => none

mutual

def same : Value → Value → Bool
  | nil, nil => true
  | bool a, bool b => a == b
  | text a, text b => a == b
  | markup a, markup b => a == b
  | int t a, int u b => t == u && a == b
  | double a, double b => a == b
  | single a, single b => a == b
  | complex a b, complex c d => a == c && b == d
  | bytes a, bytes b => a == b
  | list a, list b => sameItems a b
  | slice t a, slice u b => t == u && sameItems a b
  | array a, array b => sameItems a b
  | map k e a, map k' e' b => k == k' && e == e' && a.length == b.length && sameEntries a b
  | record t a _, record u b _ => t == u && sameFields a b
  | pointer a, pointer b => same a b
  | nullPointer, nullPointer => true
  | absent a, absent b => same a b
  | failure a, failure b => a.same b
  | default, default => true
  | channel a, channel b => a == b
  | sink, sink => true
  | cursor a, cursor b => a == b
  | loop a, loop b => a == b
  | loops a, loops b => a == b
  | program a s, program b t => a == b && s == t
  | namedMacro a _ m, namedMacro b _ n => a == b && m == n
  | template a _, template b _ => a == b
  | settings a, settings b => a == b
  | _, _ => false

def sameItems : List Value → List Value → Bool
  | [], [] => true
  | a :: as, b :: bs => same a b && sameItems as bs
  | _, _ => false

def sameEntries : List (MapKey × Value) → List (MapKey × Value) → Bool
  | [], _ => true
  | (k, a) :: es, other =>
    (match entry? other k with
    | some b => same a b
    | none => false) && sameEntries es other

def sameFields : List (Field × Value) → List (Field × Value) → Bool
  | [], [] => true
  | (_, a) :: as, (_, b) :: bs => same a b && sameFields as bs
  | _, _ => false

end

def agrees (a b : Value) : Bool :=
  match a.number?, b.number? with
  | some x, some y => x == y
  | _, _ => same a b

end Value

end PageTemplate
