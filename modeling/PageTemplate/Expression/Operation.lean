import PageTemplate.Expression.Term
import PageTemplate.Text.LetterCase
import PageTemplate.Value.Truth

/-!
The operators of the expression language on values. Integers of any width work together as 64-bit ones and
wrap around; a float makes the result a double. Pointers stand for what they point to.
-/

namespace PageTemplate.Expression

/-- How an evaluation goes wrong. -/
inductive Mishap where
  /-- Something asked for is not there. -/
  | missing
  /-- A value has the wrong type. -/
  | mismatch
  /-- A value of the right type cannot be used. -/
  | unusable
  /-- Anything else. -/
  | unclassified
  /-- Anything else that names a value. -/
  | naming (v : Value)
  /-- A host function or a lookup failed by itself. -/
  | raised (f : Failure)
  deriving Inhabited

def target : Value → Value
  | .pointer v => target v
  | v => v

def isNil : Value → Bool
  | .nil | .nullPointer | .absent _ => true
  | _ => false

inductive Number where
  | int (n : Int)
  | float (f : Float)
  deriving Inhabited

def Number.ofValue? : Value → Option Number
  | .int _ n => some (.int n)
  | .double f | .single f => some (.float f)
  | _ => none

def Number.toFloat : Number → Float
  | int n => Float.ofInt n
  | float f => f

def arithmetic (onInts : Int → Int → Int) (onFloats : Float → Float → Float) (a b : Value) : Except Mishap Value :=
  match Number.ofValue? a, Number.ofValue? b with
  | some (.int m), some (.int n) => .ok (.ofInt (wrap (onInts (wrap m) (wrap n))))
  | some x, some y => .ok (.double (onFloats x.toFloat y.toFloat))
  | _, _ => .error .mismatch

def remainder (a b : Value) : Except Mishap Value :=
  match a, b with
  | .int _ m, .int _ n =>
    if wrap n = 0 then .error .unusable else .ok (.ofInt (wrap (Int.tmod (wrap m) (wrap n))))
  | _, _ => .error .mismatch

/-- The fraction in `[1/2, 1)` and the exponent of two that make up a positive float. -/
def split2 (f : Float) : Float × Int :=
  let b := Decimal.Binary.ofFloat f
  let bits := Nat.log2 b.mantissa + 1
  (Float.ofNat b.mantissa / Float.ofNat (Nat.pow 2 bits), b.exponent + bits)

def scale2 (f : Float) (e : Int) : Float := f.scaleB e

/-- The product of `acc * 2 ^ accExp` and the `n`-th power of `x * 2 ^ exp`, by squaring. -/
def powerLoop : Nat → Nat → Float → Int → Float → Int → Float
  | 0, _, acc, accExp, _, _ => scale2 acc accExp
  | fuel + 1, n, acc, accExp, x, exp =>
    if n = 0 then scale2 acc accExp
    else
      let (acc, accExp) := if n % 2 = 1 then (acc * x, accExp + exp) else (acc, accExp)
      let y := x * x
      let (y, exp) := if y < 0.5 then (y + y, 2 * exp - 1) else (y, 2 * exp)
      powerLoop fuel (n / 2) acc accExp y exp

def naturalPower (x : Float) (n : Nat) (negative : Bool) : Float :=
  let (m, e) := split2 x
  let p := powerLoop 64 n 1 0 m e
  if negative then 1 / p else p

def power (x y : Float) : Float :=
  let whole := y == y.floor && y.abs < 4503599627370496
  if y == 0 || x == 1 then 1
  else if y == 1 then x
  else if !whole || x == 0 || Decimal.isNaN x || Decimal.isInf x || Decimal.isInf y then Float.pow x y
  else
    let n := y.abs.toUInt64.toNat
    let p := naturalPower x.abs n (y < 0)
    if x < 0 && n % 2 = 1 then -p else p

def negate : Value → Except Mishap Value
  | .int t n => .ok (.int t (t.wrap (-n)))
  | .double f => .ok (.double (-f))
  | .single f => .ok (.single (-f))
  | _ => .error .mismatch

/-- The order of two numbers or two texts: whether the first stands before the second, and whether they are
equal. -/
def compare (a b : Value) : Except Mishap (Bool × Bool) :=
  match a, b with
  | .text s, .text t => .ok (Bytes.lt s t, s == t)
  | a, b =>
    match Number.ofValue? a, Number.ofValue? b with
    | some (.int m), some (.int n) => .ok (wrap m < wrap n, wrap m == wrap n)
    | some x, some y => .ok (x.toFloat < y.toFloat, x.toFloat == y.toFloat)
    | _, _ => .error .mismatch

def byteValues (s : Bytes) : List Value := s.map fun b => .int .uint8 b.toNat

def listItems? : Value → Option (List Value)
  | .list vs | .slice _ vs | .absent (.slice _ vs) => some vs
  | .bytes s => some (byteValues s)
  | _ => none

def equalInt (m : Int) : Value → Bool
  | .int _ n => wrap m == wrap n
  | .double f | .single f => Float.ofInt m == f
  | _ => false

def equalBytes (s : Bytes) (vs : List Value) : Bool :=
  s.length == vs.length && (s.zip vs).all fun (b, v) => equalInt b.toNat v

mutual

/-- Whether two values are equal: numbers by value, lists by their elements, all else by type and parts. Lists
with different types of elements are never equal unless one of the types is open. -/
def equal : Value → Value → Bool
  | .int _ m, b => equalInt m b
  | .double f, b | .single f, b =>
    match b with
    | .int _ n => f == Float.ofInt n
    | .double g | .single g => f == g
    | _ => false
  | .list as, b =>
    match listItems? b with
    | some bs => equalItems as bs
    | none => false
  | .slice t as, b =>
    match b with
    | .list bs => equalItems as bs
    | .slice u bs | .absent (.slice u bs) => t == u && equalItems as bs
    | _ => false
  | .bytes s, b =>
    match b with
    | .list bs => equalBytes s bs
    | .bytes t => s == t
    | _ => false
  | .absent a, b => isNil b || ((listItems? a).isSome && equal a b)
  | a, b => (isNil a && isNil b) || a.same b

def equalItems : List Value → List Value → Bool
  | [], [] => true
  | a :: as, b :: bs => equal a b && equalItems as bs
  | _, _ => false

end

/-- The 64-bit integer that a float stands for without its fraction. One that does not fit stands for the least. -/
def truncated (f : Float) : Int :=
  if f.abs < 9223372036854775808 then f.toInt64.toInt else -0x8000000000000000

def toIndex? : Value → Option Int
  | .int _ n => some (wrap n)
  | .double f | .single f => some (truncated f)
  | _ => none

def rangeItems (lo : Int) (size : Nat) : List Value := (List.range size).map fun (i : Nat) => .ofInt (lo + i)

/-- The first integer of a range and the number of its elements. A range whose number of elements does not fit
into 64 bits wraps around and may be empty. -/
def rangeBounds (a b : Value) : Except Mishap (Int × Nat) :=
  match toIndex? a, toIndex? b with
  | some lo, some hi => .ok (lo, (wrap (hi - lo + 1)).toNat)
  | _, _ => .error .mismatch

def toKey? : KeyType → Value → Option MapKey
  | .text, .text s => some (.text s)
  | .markup, .markup s => some (.text s)
  | .int, .int .int n => some (.int n)
  | .text, .nil | .markup, .nil => some (.text [])
  | .int, .nil => some (.int 0)
  | _, _ => none

def testTexts (test : Bytes → Bytes → Bool) (a b : Value) : Except Mishap Value :=
  if isNil a || isNil b then .ok (.bool false)
  else
    match a, b with
    | .text s, .text t => .ok (.bool (test s t))
    | _, _ => .error .mismatch

def sum (a b : Value) : Except Mishap Value :=
  match a, b with
  | .text s, .text t => .ok (.text (s ++ t))
  | a, b => arithmetic (· + ·) (· + ·) a b

/-- The operators that evaluate both operands. -/
def BinaryOp.apply (op : BinaryOp) (a b : Value) : Except Mishap Value :=
  let float (f : Float → Float → Float) : Except Mishap Value :=
    match Number.ofValue? a, Number.ofValue? b with
    | some x, some y => .ok (.double (f x.toFloat y.toFloat))
    | _, _ => .error .mismatch
  let ordered (test : Bool × Bool → Bool) : Except Mishap Value := (compare a b).map fun r => .bool (test r)
  match op with
  | .eq => .ok (.bool (equal a b))
  | .ne => .ok (.bool !equal a b)
  | .lt => ordered fun r => r.1
  | .le => ordered fun r => r.1 || r.2
  | .gt => (compare b a).map fun r => .bool r.1
  | .ge => (compare b a).map fun r => .bool (r.1 || r.2)
  | .add => sum a b
  | .sub => arithmetic (· - ·) (· - ·) a b
  | .mul => arithmetic (· * ·) (· * ·) a b
  | .div => float (· / ·)
  | .pow => float power
  | .mod => remainder a b
  | .contains => testTexts (fun s t => Bytes.hasInfix t s) a b
  | .startsWith => testTexts (fun s t => t.isPrefixOf s) a b
  | .endsWith => testTexts (fun s t => t.isSuffixOf s) a b
  | .or | .and | .mem | .range | .coalesce => .error .unclassified

def asBool : Value → Except Mishap Bool
  | .bool b => .ok b
  | _ => .error .mismatch

/-- The part of a list, text or byte string between two positions. Negative positions count from the end, and
those outside are moved to the nearest end. -/
def clampSlice {α : Type} (xs : List α) (lo hi : Int) : List α :=
  let n : Int := xs.length
  let fromEnd (i : Int) : Int := if i < 0 then max (n + i) 0 else i
  let hi := min (fromEnd hi) n
  let lo := min (fromEnd lo) hi
  (xs.take hi.toNat).drop lo.toNat

def sliceLength? : Value → Option Nat
  | .text s | .markup s | .bytes s => some s.length
  | .list vs | .slice _ vs | .array vs => some vs.length
  | .map _ _ es => some es.length
  | .absent _ | .loops _ => some 0
  | _ => none

/-- The part of a value between two positions. -/
def sliceValue (v : Value) (lo hi : Int) : Except Mishap Value :=
  match target v with
  | .text s => .ok (.text (clampSlice s lo hi))
  | .markup s => .ok (.markup (clampSlice s lo hi))
  | .bytes s => .ok (.bytes (clampSlice s lo hi))
  | .list vs | .array vs => .ok (.list (clampSlice vs lo hi))
  | .slice t vs => .ok (.slice t (clampSlice vs lo hi))
  | .absent (.slice t vs) => .ok (.absent (.slice t vs))
  | v => .error (.naming v)

/-- The pieces of a text between occurrences of a separator, at most `n` if it is given; an empty separator
cuts between characters. -/
def splitText (s sep : Bytes) (n : Option Nat) : List Bytes :=
  let cut (pieces : List Bytes) : List Bytes :=
    match n with
    | some k => if pieces.length ≤ k then pieces else pieces.take (k - 1) ++ [Bytes.join sep (pieces.drop (k - 1))]
    | none => pieces
  if n = some 0 then []
  else if sep.isEmpty then cut ((Text.glyphs s).map Text.Glyph.bytes)
  else cut (pieces (s.length + 1) s)
where
  pieces : Nat → Bytes → List Bytes
    | 0, s => [s]
    | fuel + 1, s =>
      match Bytes.breakOn? sep s with
      | some (a, b) => a :: pieces fuel b
      | none => [s]

def trimSet (s set : Bytes) : Bytes :=
  let chars := (Text.glyphs set).map Text.Glyph.toChar
  let inSet (g : Text.Glyph) : Bool := chars.contains g.toChar
  Text.ofGlyphs (((((Text.glyphs s).dropWhile inSet).reverse).dropWhile inSet).reverse)

end PageTemplate.Expression
