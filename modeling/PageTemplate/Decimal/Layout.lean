import PageTemplate.Decimal.Shortest

/-!
Written numbers. The shortest digits are laid out in plain decimal notation for inserted text, and with an exponent for
large and small numbers in displays. Reading a number rounds its decimal to the nearest float.
-/

namespace PageTemplate.Decimal

def isNaN (f : Float) : Bool :=
  let (_, e, m) := fields f
  e == 2047 && m != 0

def isInf (f : Float) : Bool :=
  let (_, e, m) := fields f
  e == 2047 && m == 0

def isNegative (f : Float) : Bool := (fields f).1

def isZero (f : Float) : Bool :=
  let (_, e, m) := fields f
  e == 0 && m == 0

def special? (f : Float) : Option Bytes :=
  if isNaN f then some (utf8 "NaN")
  else if isInf f then some (if isNegative f then utf8 "-Inf" else utf8 "+Inf")
  else none

def positional (d : Digits) : Bytes :=
  let s := Bytes.ofNat d.digits
  match d.exponent with
  | .ofNat n => s ++ List.replicate n Byte.zero
  | .negSucc n =>
    let places := n + 1
    if s.length > places then s.take (s.length - places) ++ Byte.period :: s.drop (s.length - places)
    else utf8 "0." ++ List.replicate (places - s.length) Byte.zero ++ s

/-- The digits of a decimal with one digit before the point and a signed exponent of at least two
digits. -/
def scientific (d : Digits) : Bytes :=
  let s := Bytes.ofNat d.digits
  let e := d.exponent + (s.length - 1 : Nat)
  let fraction := if s.length > 1 then Byte.period :: s.drop 1 else []
  let exponent := Bytes.ofNat e.natAbs
  let padded := if exponent.length < 2 then Byte.zero :: exponent else exponent
  s.take 1 ++ fraction ++ utf8 (if e < 0 then "e-" else "e+") ++ padded

/-- The general layout: an exponent is written for numbers below `1e-4` and from `1e+06` on. -/
def general (d : Digits) : Bytes :=
  let e := d.exponent + ((Bytes.ofNat d.digits).length - 1 : Nat)
  if e < -4 || e ≥ 6 then scientific d else positional d

def display (digits : Float → Digits) (f : Float) : Bytes :=
  match special? f with
  | some s => s
  | none =>
    let body := if isZero f then utf8 "0" else general (digits f)
    if isNegative f then Byte.minus :: body else body

def displayDouble (f : Float) : Bytes := display (fun f => shortest (Binary.ofFloat f)) f

/-- A single-precision float in the general layout, with the digits that single precision needs. -/
def displaySingle (f : Float) : Bytes := display (fun f => shortest (Binary.ofSingle f)) f

/-- A float as inserted text: positional notation, and zero without a sign. -/
def plain (f : Float) : Bytes :=
  match special? f with
  | some s => s
  | none =>
    if isZero f then utf8 "0"
    else
      let body := positional (shortest (Binary.ofFloat f))
      if isNegative f then Byte.minus :: body else body

/-- The quotient `n / d` rounded to the nearest natural number, a half going to the even one. -/
def roundDiv (n d : Nat) : Nat :=
  let q := n / d
  let r := n % d
  if 2 * r < d || (2 * r = d && q % 2 = 0) then q else q + 1

def Digits.fraction (d : Digits) : Nat × Nat :=
  match d.exponent with
  | .ofNat n => (d.digits * Nat.pow 10 n, 1)
  | .negSucc n => (d.digits, Nat.pow 10 (n + 1))

/-- A decimal of moderate exponent that rounds as `d` does: beyond every float, or below half the least
one, the exact value makes no difference. -/
def Digits.clamp (d : Digits) : Digits :=
  if d.digits = 0 || 3 * d.exponent + Nat.log2 d.digits < -1200 then ⟨0, 0⟩ else ⟨d.digits, min d.exponent 400⟩

/-- The double nearest to a decimal. -/
def toDouble (negative : Bool) (d : Digits) : Float :=
  let d := d.clamp
  let magnitude :=
    match d.exponent with
    | .ofNat n => Float.ofScientific d.digits false n
    | .negSucc n => Float.ofScientific d.digits true (n + 1)
  if negative then -magnitude else magnitude

/-- The single-precision float nearest to a decimal, as a double. -/
def toSingle (negative : Bool) (d : Digits) : Float :=
  let (n, den) := d.clamp.fraction
  let magnitude : Float :=
    if n = 0 then 0
    else
      let guess : Int := (Nat.log2 n : Int) - Nat.log2 den
      let e₀ : Int := if (scale den guess).1 ≤ n * (scale den guess).2 then guess else guess - 1
      let e := max (e₀ - 23) (-149)
      let m :=
        match e with
        | .ofNat k => roundDiv n (den * Nat.pow 2 k)
        | .negSucc k => roundDiv (n * Nat.pow 2 (k + 1)) den
      if e₀ > 127 || (m = 0x1000000 && e = 104) then 1 / 0
      else
        match e with
        | .ofNat k => Float.ofNat (m * Nat.pow 2 k)
        | .negSucc k => Float.ofNat m / Float.ofNat (Nat.pow 2 (k + 1))
  if negative then -magnitude else magnitude

/-- The number written by a run of decimal digits, and what follows them. -/
def readDigits (s : Bytes) : Nat × Nat × Bytes :=
  let ds := s.takeWhile Byte.isDigit
  (ds.foldl (fun n b => 10 * n + (b.toNat - 48)) 0, ds.length, s.dropWhile Byte.isDigit)

/-- The decimal written by a whole text: digits with an optional point and exponent. -/
def readUnsigned? (s : Bytes) : Option Digits :=
  let (whole, n, s) := readDigits s
  let (value, places, m, s) : Nat × Nat × Nat × Bytes :=
    match s with
    | c :: s' =>
      if c = Byte.period then
        let (fraction, m, s'') := readDigits s'
        (whole * Nat.pow 10 m + fraction, m, n + m, s'')
      else (whole, 0, n, s)
    | [] => (whole, 0, n, s)
  if m = 0 then none
  else
    match s with
    | [] => some ⟨value, -(places : Int)⟩
    | c :: s =>
      if c = 101 || c = 69 then
        let (negative, s) : Bool × Bytes :=
          match s with
          | c :: s' => if c = Byte.minus then (true, s') else if c = Byte.plus then (false, s') else (false, s)
          | [] => (false, s)
        let (e, k, s) := readDigits s
        if k = 0 || !s.isEmpty then none
        else some ⟨value, (if negative then -(e : Int) else e) - places⟩
      else none

def readSign : Bytes → Bool × Bytes
  | c :: s => if c = Byte.minus then (true, s) else if c = Byte.plus then (false, s) else (false, c :: s)
  | [] => (false, [])

/-- The float written by a text at a precision given by its rounding; names of infinities and of the
missing number are accepted. -/
def readFloat? (round : Bool → Digits → Float) (s : Bytes) : Option Float :=
  let (negative, rest) := readSign s
  let word := rest.map fun b => if Byte.upperA ≤ b && b ≤ Byte.upperZ then b + 32 else b
  if word == utf8 "inf" || word == utf8 "infinity" then some (if negative then -(1 / 0) else 1 / 0)
  else if word == utf8 "nan" then some (0 / 0)
  else (readUnsigned? rest).map (round negative)

end PageTemplate.Decimal
