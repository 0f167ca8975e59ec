import Mathlib.Data.List.Induction
import Mathlib.Data.List.Shortlex
import Mathlib.Data.Set.Function
import PageTemplate.Numeral

/-!
Labels read back as numbers. In letters `a` to `z` are the digits 1 to 26 of a number to base 26, so each text of letters
is the label of one number, and labels are in order by length and then by letters. A Roman numeral is read symbol by
symbol, and a symbol before a greater one is subtracted.
-/

namespace PageTemplate.Numeral

variable {s : Bytes} {table : List (Nat × Bytes)}

/-! ### Letters -/

def isLetter (b : UInt8) : Bool := Byte.lowerA ≤ b && b ≤ Byte.lowerZ

/-- The place of a letter in the alphabet, counted from one. -/
def rank (b : UInt8) : Nat := b.toNat - 96

/-- The number that letters stand for, each to count 26 times as much as the next. -/
def ofLetters (s : Bytes) : Nat := s.foldl (fun n b => 26 * n + rank b) 0

theorem ofLetters_append (s : Bytes) (b : UInt8) : ofLetters (s ++ [b]) = 26 * ofLetters s + rank b := by
  simp [ofLetters]

theorem letters_succ (n : Nat) : letters (n + 1) = letters (n / 26) ++ [Byte.lowerA + (n % 26).toUInt8] := by
  rw [letters]

theorem toNat_lowerA_add {d : Nat} (h : d < 26) : (Byte.lowerA + d.toUInt8).toNat = 97 + d := by
  have hlowerA : Byte.lowerA.toNat = 97 := rfl
  rw [UInt8.toNat_add, Nat.toUInt8, UInt8.toNat_ofNat', hlowerA]
  omega

theorem rank_digit {d : Nat} (h : d < 26) : rank (Byte.lowerA + d.toUInt8) = d + 1 := by
  rw [rank, toNat_lowerA_add h]
  omega

theorem isLetter_iff {b : UInt8} : isLetter b ↔ ∃ d < 26, b = Byte.lowerA + d.toUInt8 := by
  rw [isLetter, Bool.and_eq_true, decide_eq_true_eq, decide_eq_true_eq, UInt8.le_iff_toNat_le, UInt8.le_iff_toNat_le]
  show 97 ≤ b.toNat ∧ b.toNat ≤ 122 ↔ _
  constructor
  · rintro ⟨hle, hge⟩
    have hd : b.toNat - 97 < 26 := by omega
    exact ⟨b.toNat - 97, hd, UInt8.toNat_inj.1 (by rw [toNat_lowerA_add hd]; omega)⟩
  · rintro ⟨d, hd, rfl⟩
    rw [toNat_lowerA_add hd]
    omega

theorem all_isLetter_letters (n : Nat) : (letters n).all isLetter := by
  fun_induction letters n with
  | case1 => rfl
  | case2 n ih =>
    rw [List.all_append, ih, Bool.true_and, List.all_cons, List.all_nil, Bool.and_true]
    exact isLetter_iff.2 ⟨n % 26, Nat.mod_lt _ (by decide), rfl⟩

theorem ofLetters_letters (n : Nat) : ofLetters (letters n) = n := by
  fun_induction letters n with
  | case1 => rfl
  | case2 n ih =>
    rw [ofLetters_append, ih, rank_digit (Nat.mod_lt _ (by decide))]
    omega

theorem letters_ofLetters (h : s.all isLetter) : letters (ofLetters s) = s := by
  induction s using List.reverseRecOn with
  | nil => rw [ofLetters, List.foldl_nil, letters]
  | append_singleton s b ih =>
    rw [List.all_append, Bool.and_eq_true] at h
    obtain ⟨d, hd, rfl⟩ := isLetter_iff.1 (by simpa using h.2)
    rw [ofLetters_append, rank_digit hd, ← Nat.add_assoc, letters_succ, Nat.mul_add_div (by decide), Nat.div_eq_of_lt hd,
      Nat.add_zero, ih h.1, Nat.mul_add_mod, Nat.mod_eq_of_lt hd]

theorem shortlex_append {t : Bytes} (h : List.Shortlex (· < ·) s t) (a b : UInt8) :
    List.Shortlex (· < ·) (s ++ [a]) (t ++ [b]) := by
  rcases List.shortlex_def.1 h with hlt | ⟨heq, hlex⟩
  · exact .of_length_lt (by simpa using hlt)
  · refine .of_lex (by simpa using heq) ?_
    clear h
    induction hlex with
    | nil => simp at heq
    | cons _ ih => exact .cons (ih (by simpa using heq))
    | rel h => exact .rel h

theorem shortlex_letters {m n : Nat} (h : m < n) : List.Shortlex (· < ·) (letters m) (letters n) := by
  induction n using Nat.strongRecOn generalizing m with
  | ind n ih =>
    obtain ⟨n, rfl⟩ : ∃ k, n = k + 1 := ⟨n - 1, by omega⟩
    cases m with
    | zero => exact .of_length_lt (by simp [letters])
    | succ m =>
      rw [letters_succ, letters_succ]
      -- Either the letters before the last are in order, or they are the same.
      rcases Nat.lt_or_ge (m / 26) (n / 26) with hlt | hge
      · exact shortlex_append (ih _ (by omega) hlt) _ _
      · have heq : m / 26 = n / 26 := by omega
        rw [heq]
        refine .append_left ((List.shortlex_singleton_iff _ _).2 ?_) _
        rw [UInt8.lt_iff_toNat_lt, toNat_lowerA_add (by omega), toNat_lowerA_add (by omega)]
        omega

/-! ### Roman numerals -/

def symbolValue (b : UInt8) : Nat := (((utf8 "MDCLXVI").zip [1000, 500, 100, 50, 10, 5, 1]).lookup b).getD 0

/-- The number that symbols stand for, where a symbol before a greater one is subtracted. -/
def ofRoman : Bytes → Int
  | [] => 0
  | b :: s => (if s.head?.any (symbolValue b < symbolValue ·) then -symbolValue b else symbolValue b : Int) + ofRoman s

/-- No symbol of the first text is subtracted because the second follows. -/
def descends (s t : Bytes) : Bool := s.getLast?.all fun b => t.head?.all (symbolValue · ≤ symbolValue b)

theorem descends_append {t u : Bytes} (ht : descends s t) (hu : descends s u) : descends s (t ++ u) := by
  cases t <;> assumption

theorem descends_replicate {t : Bytes} (h : descends s t) (n : Nat) : descends s (Bytes.replicate n t) := by
  induction n with
  | zero => simp [Bytes.replicate, descends]
  | succ n ih => exact descends_append h ih

theorem descends_romanWith (h : ∀ e ∈ table, descends s e.2) (n : Nat) : descends s (romanWith table n) := by
  induction table generalizing n with
  | nil => simp [romanWith, descends]
  | cons e table ih =>
    obtain ⟨he, htable⟩ := List.forall_mem_cons.1 h
    exact descends_append (descends_replicate he _) (ih htable _)

theorem ofRoman_append {t : Bytes} (h : descends s t) : ofRoman (s ++ t) = ofRoman s + ofRoman t := by
  induction s with
  | nil => simp [ofRoman]
  | cons b s ih =>
    cases s with
    | nil =>
      have hlast : (t.head?.any (symbolValue b < symbolValue ·)) = false := by
        cases t <;> simp_all [descends]
      simp [ofRoman, hlast]
    | cons c s =>
      rw [List.cons_append, ofRoman, ih h, ofRoman]
      exact (Int.add_assoc _ _ _).symm

theorem ofRoman_replicate_append {t : Bytes} (hself : descends s s) (h : descends s t) (n : Nat) :
    ofRoman (Bytes.replicate n s ++ t) = n * ofRoman s + ofRoman t := by
  induction n with
  | zero => simp [Bytes.replicate]
  | succ n ih =>
    have hstep : Bytes.replicate (n + 1) s ++ t = s ++ (Bytes.replicate n s ++ t) := by
      simp [Bytes.replicate, List.replicate_succ]
    rw [hstep, ofRoman_append (descends_append (descends_replicate hself n) h), ih]
    grind

/-- What the symbols of a table stand for, together with the remainder that they leave, is the number. -/
theorem ofRoman_romanWith (hvalues : ∀ e ∈ table, ofRoman e.2 = e.1 ∧ descends e.2 e.2)
    (hpairs : table.Pairwise fun e f => descends e.2 f.2) (n : Nat) :
    ofRoman (romanWith table n) + (table.foldl (fun n e => n % e.1) n : Nat) = n := by
  induction table generalizing n with
  | nil => simp [romanWith, ofRoman]
  | cons e table ih =>
    obtain ⟨⟨hvalue, hself⟩, hvalues⟩ := List.forall_mem_cons.1 hvalues
    obtain ⟨hfollow, hpairs⟩ := List.pairwise_cons.1 hpairs
    rw [romanWith, ofRoman_replicate_append hself (descends_romanWith hfollow _), hvalue, Int.add_assoc, List.foldl_cons,
      ih hvalues hpairs]
    exact_mod_cast Nat.div_add_mod' n e.1

theorem all_romanWith {p : UInt8 → Bool} (h : ∀ e ∈ table, e.2.all p) (n : Nat) : (romanWith table n).all p := by
  induction table generalizing n with
  | nil => rfl
  | cons e table ih =>
    obtain ⟨he, htable⟩ := List.forall_mem_cons.1 h
    have hreplicate : (Bytes.replicate (n / e.1) e.2).all p := by
      rw [Bytes.replicate, List.all_flatten, List.all_eq_true]
      intro s hs
      rw [List.eq_of_mem_replicate hs, he]
    rw [romanWith, List.all_append, hreplicate, ih htable]
    rfl

theorem ofRoman_roman (n : Nat) : ofRoman (roman n) = n := by
  have h := @ofRoman_romanWith romanDigits (by decide +kernel) (by decide +kernel) n
  have hleft : romanDigits.foldl (fun n e => n % e.1) n = 0 := by simp [romanDigits, Nat.mod_one]
  rwa [hleft, Int.natCast_zero, Int.add_zero] at h

/-- Every number from one on has its own label of letters, and every text of letters is a label; labels are read back as
their numbers and come in the order of these. Roman numerals are read back as well. -/
theorem labels_read_back :
    (∀ n, (letters n).all isLetter ∧ ofLetters (letters n) = n) ∧
      Set.BijOn letters {n | 1 ≤ n} {s | s ≠ [] ∧ s.all isLetter} ∧
      (∀ m n, m < n ↔ List.Shortlex (· < ·) (letters m) (letters n)) ∧
      (∀ n, (roman n).all (utf8 "MDCLXVI").contains ∧ ofRoman (roman n) = n) ∧ Function.Injective roman := by
  have hinjective : Function.Injective letters := Function.LeftInverse.injective ofLetters_letters
  refine ⟨fun n => ⟨all_isLetter_letters n, ofLetters_letters n⟩, ⟨fun n hn => ?_, hinjective.injOn, fun s hs => ?_⟩,
    fun m n => ⟨shortlex_letters, fun h => ?_⟩, fun n => ⟨all_romanWith (by decide +kernel) n, ofRoman_roman n⟩,
    fun m n h => ?_⟩
  · refine ⟨fun hnil => ?_, all_isLetter_letters n⟩
    have hzero := ofLetters_letters n
    rw [hnil] at hzero
    exact absurd hzero (Nat.ne_of_lt hn)
  · refine ⟨ofLetters s, Nat.one_le_iff_ne_zero.2 fun hzero => hs.1 ?_, letters_ofLetters hs.2⟩
    rw [← letters_ofLetters hs.2, hzero, letters]
  · rcases Nat.lt_trichotomy m n with hlt | rfl | hlt
    · exact hlt
    · exact absurd h (Std.Asymm.asymm _ _ h)
    · exact absurd h (Std.Asymm.asymm _ _ (shortlex_letters hlt))
  · have hreading := congrArg ofRoman h
    rw [ofRoman_roman, ofRoman_roman] at hreading
    exact Int.ofNat_inj.1 hreading

end PageTemplate.Numeral
