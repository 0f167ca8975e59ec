import PageTemplate.Bytes

/-!
The shortest decimal of a binary fraction. A float stands for every real that rounds to it; among the
decimals with the fewest digits in that interval the one nearest to the float is taken. All arithmetic
is exact, on natural numbers.
-/

namespace PageTemplate.Decimal

/-- A positive float as `mantissa * 2 ^ exponent`. -/
structure Binary where
  mantissa : Nat
  exponent : Int
  /-- Whether the next float below is only half as far away as the next one above. -/
  narrow : Bool
  deriving DecidableEq, Repr, Inhabited

/-- A decimal `digits * 10 ^ exponent`. -/
structure Digits where
  digits : Nat
  exponent : Int
  deriving DecidableEq, Repr, Inhabited

def fields (f : Float) : Bool × Nat × Nat :=
  let bits := f.toBits.toNat
  (bits / 0x8000000000000000 == 1, bits / 0x10000000000000 % 2048, bits % 0x10000000000000)

def Binary.ofFloat (f : Float) : Binary :=
  let (_, e, m) := fields f
  if e = 0 then ⟨m, -1074, false⟩ else ⟨m + 0x10000000000000, (e : Int) - 1075, m == 0 && e > 1⟩

/-- A finite double that is a single-precision float, seen at that precision and without its sign. -/
def Binary.ofSingle (f : Float) : Binary :=
  let (_, e, m) := fields f
  let full := if e = 0 then m else m + 0x10000000000000
  let exponent : Int := (e : Int) - 1075
  if e < 897 then ⟨full / Nat.pow 2 (-149 - exponent).toNat, -149, false⟩
  else ⟨full / 0x20000000, exponent + 29, m == 0 && e > 897⟩

def scale (x : Nat) (e : Int) : Nat × Nat :=
  match e with
  | .ofNat n => (x * Nat.pow 2 n, 1)
  | .negSucc n => (x, Nat.pow 2 (n + 1))

def unscale (n d : Nat) (e : Int) : Nat × Nat :=
  match e with
  | .ofNat k => (n, d * Nat.pow 10 k)
  | .negSucc k => (n * Nat.pow 10 (k + 1), d)

/-- The first exponent from `k` on, among the next `fuel`, whose power of ten exceeds `n / d`. -/
def exponentFrom (n d : Nat) : Nat → Int → Int
  | 0, k => k
  | fuel + 1, k =>
    let r := unscale n d k
    if r.1 < r.2 then k else exponentFrom n d fuel (k + 1)

def exponentOf (n d : Nat) : Int :=
  let guess := ((Nat.log2 n : Int) - Nat.log2 d - 1) * 30103 / 100000
  exponentFrom n d 8 (guess - 1)

def Digits.strip : Nat → Digits → Digits
  | 0, d => d
  | fuel + 1, d =>
    if d.digits ≠ 0 && d.digits % 10 == 0 then Digits.strip fuel ⟨d.digits / 10, d.exponent + 1⟩ else d

/-- The decimals on the grid `10 ^ e` next to the value that lie between the ends, nearest first. The
value and the ends are given over one denominator; the ends belong to the interval when `closed`. -/
def neighbours (value low high den : Nat) (closed : Bool) (e : Int) : List Nat :=
  let v := unscale value den e
  let below := v.1 / v.2
  let inside (c : Nat) : Bool :=
    let l := unscale low den e
    let h := unscale high den e
    if closed then l.1 ≤ c * l.2 && c * h.2 ≤ h.1 else l.1 < c * l.2 && c * h.2 < h.1
  let candidates := if 2 * (v.1 % v.2) ≤ v.2 then [below, below + 1] else [below + 1, below]
  candidates.filter inside

/-- The nearest decimal in the interval with the fewest digits, trying `n` digits first. -/
def search (value low high den : Nat) (closed : Bool) (top : Int) : Nat → Nat → Digits
  | 0, n => ⟨value, top - n⟩
  | fuel + 1, n =>
    let e := top - n
    match neighbours value low high den closed e with
    | c :: _ => ⟨c, e⟩
    | [] => search value low high den closed top fuel (n + 1)

/-- The shortest decimal that rounds to a positive float. -/
def shortest (b : Binary) : Digits :=
  let low := 4 * b.mantissa - (if b.narrow then 1 else 2)
  let value := scale (4 * b.mantissa) (b.exponent - 2)
  let low := (scale low (b.exponent - 2)).1
  let high := (scale (4 * b.mantissa + 2) (b.exponent - 2)).1
  let top := exponentOf value.1 value.2
  Digits.strip 20 (search value.1 low high value.2 (b.mantissa % 2 == 0) top 18 1)

end PageTemplate.Decimal
