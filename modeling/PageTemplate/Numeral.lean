import PageTemplate.Bytes

/-!
Labels for counted things: letters, where the label after `z` is `aa`, and Roman numerals.
-/

namespace PageTemplate.Numeral

/-- The letters that count `n` in bijective base 26: `a` is 1, `z` is 26 and `aa` is 27. -/
def letters (n : Nat) : Bytes :=
  match n with
  | 0 => []
  | n + 1 => letters (n / 26) ++ [Byte.lowerA + (n % 26).toUInt8]
termination_by n
decreasing_by omega

def romanDigits : List (Nat × Bytes) :=
  [(1000, utf8 "M"), (900, utf8 "CM"), (500, utf8 "D"), (400, utf8 "CD"), (100, utf8 "C"), (90, utf8 "XC"),
    (50, utf8 "L"), (40, utf8 "XL"), (10, utf8 "X"), (9, utf8 "IX"), (5, utf8 "V"), (4, utf8 "IV"), (1, utf8 "I")]

def romanWith : List (Nat × Bytes) → Nat → Bytes
  | [], _ => []
  | (value, symbol) :: rest, n => Bytes.replicate (n / value) symbol ++ romanWith rest (n % value)

def roman (n : Nat) : Bytes := romanWith romanDigits n

end PageTemplate.Numeral
