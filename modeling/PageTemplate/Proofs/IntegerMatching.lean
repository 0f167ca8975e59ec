import Mathlib
import PageTemplate.Proofs.Render.Run
import PageTemplate.Render

/-!
Which integers match each other. Numbers are compared as doubles, also when both are integers. So an integer matches
those that are rounded to the same number of 53 significant bits, and only below `2 ^ 53` does it match no other. The library's lemmas on the model of doubles come with
the whole of it only.
-/

namespace PageTemplate

namespace Double

open Float.Model (Format UnpackedFloat)
open Float.Model.UnpackedFloat

variable {u : UnpackedFloat} {n : Nat}
variable {e : Int}

/-- The quotient by a power of two, rounded to the nearest number; halfway it goes to the even one. -/
def roundHalfEven (m k : Nat) : Nat :=
  if 2 * (m % 2 ^ k) < 2 ^ k ∨ 2 * (m % 2 ^ k) = 2 ^ k ∧ m / 2 ^ k % 2 = 0 then m / 2 ^ k
  else m / 2 ^ k + 1

/-- What the two residual bits tell of the bits that have been shifted out. -/
structure Shifted (m k : Nat) (em : ExtendedMantissa) : Prop where
  mantissa : em.mantissa = m / 2 ^ k
  roundBit : em.roundBit = decide (2 ^ k ≤ 2 * (m % 2 ^ k))
  stickyBit : em.stickyBit = decide (2 * (m % 2 ^ k) ≠ 0 ∧ 2 * (m % 2 ^ k) ≠ 2 ^ k)

theorem shifted_shiftRight (m k : Nat) :
    Shifted m k (ExtendedMantissa.ofMantissaAndAccuracy m .exact >>> k) := by
  induction k with
  | zero =>
    change Shifted m 0 ⟨m, false, false⟩
    exact ⟨by simp, by simp [Nat.mod_one], by simp [Nat.mod_one]⟩
  | succ k ih =>
    have hrest : m % 2 ^ (k + 1) = m % 2 ^ k + 2 ^ k * (m / 2 ^ k % 2) := by
      rw [Nat.pow_succ, Nat.mod_mul]
    have hlt : m % 2 ^ k < 2 ^ k := Nat.mod_lt _ (Nat.two_pow_pos k)
    change Shifted m (k + 1) (ExtendedMantissa.ofMantissaAndAccuracy m .exact >>> k).shiftRightOne
    refine ⟨?_, ?_, ?_⟩
    · rw [ExtendedMantissa.shiftRightOne, ih.mantissa, Nat.div_div_eq_div_mul, Nat.pow_succ]
    · rw [ExtendedMantissa.shiftRightOne, ih.mantissa, hrest]
      rcases Nat.mod_two_eq_zero_or_one (m / 2 ^ k) with h | h <;> simp [h, Nat.pow_succ] <;> omega
    · rw [ExtendedMantissa.shiftRightOne, ih.roundBit, ih.stickyBit, hrest]
      rcases Nat.mod_two_eq_zero_or_one (m / 2 ^ k) with h | h <;> simp [h, Nat.pow_succ] <;> grind

theorem roundedMantissa_shiftRight (m k : Nat) :
    (ExtendedMantissa.ofMantissaAndAccuracy m .exact >>> k).roundedMantissa = roundHalfEven m k := by
  have hpos := Nat.two_pow_pos k
  obtain ⟨hmantissa, hround, hsticky⟩ := shifted_shiftRight m k
  generalize ExtendedMantissa.ofMantissaAndAccuracy m .exact >>> k = em at *
  obtain ⟨q, roundBit, stickyBit⟩ := em
  cases roundBit <;> cases stickyBit <;>
    simp only [ExtendedMantissa.roundedMantissa, ExtendedMantissa.accuracy, Accuracy.roundToNearestEven,
      roundHalfEven] <;> grind

theorem roundHalfEven_bounds {m k : Nat} (h : m.log2 = 52 + k) :
    2 ^ 52 ≤ roundHalfEven m k ∧ roundHalfEven m k ≤ 2 ^ 53 := by
  have hm : m ≠ 0 := by rintro rfl; simp at h; omega
  obtain ⟨hlow, hhigh⟩ := (Nat.log2_eq_iff hm).1 h
  have hlow' : 2 ^ 52 ≤ m / 2 ^ k :=
    (Nat.le_div_iff_mul_le (Nat.two_pow_pos k)).2 (by rwa [← Nat.pow_add])
  have hhigh' : m / 2 ^ k < 2 ^ 53 := (Nat.div_lt_iff_lt_mul (Nat.two_pow_pos k)).2 (by
    rw [← Nat.pow_add]; rwa [show 53 + k = 52 + k + 1 by omega])
  rw [roundHalfEven]
  split <;> omega

@[simp]
theorem roundHalfEven_mul_two_pow (m k : Nat) : roundHalfEven (m * 2 ^ k) k = m := by
  simp [roundHalfEven]

theorem roundHalfEven_mul_two_pow_add (m k j : Nat) :
    roundHalfEven (m * 2 ^ j) (j + k) = roundHalfEven m k := by
  have hj := Nat.two_pow_pos j
  have hdiv : m * 2 ^ j / 2 ^ (j + k) = m / 2 ^ k := by
    rw [Nat.pow_add, Nat.mul_comm m, Nat.mul_div_mul_left _ _ hj]
  have hmod : m * 2 ^ j % 2 ^ (j + k) = 2 ^ j * (m % 2 ^ k) := by
    rw [Nat.pow_add, Nat.mul_comm m, Nat.mul_mod_mul_left]
  have hlt : 2 * (2 ^ j * (m % 2 ^ k)) < 2 ^ j * 2 ^ k ↔ 2 * (m % 2 ^ k) < 2 ^ k := by
    rw [Nat.mul_left_comm, Nat.mul_lt_mul_left hj]
  have heq : 2 * (2 ^ j * (m % 2 ^ k)) = 2 ^ j * 2 ^ k ↔ 2 * (m % 2 ^ k) = 2 ^ k := by
    rw [Nat.mul_left_comm, Nat.mul_right_inj (Nat.ne_of_gt hj)]
  simp only [roundHalfEven, hdiv, hmod]
  simp only [Nat.pow_add, hlt, heq]

/-- One shift of a mantissa that is not too small leaves 53 bits of it. -/
theorem shiftToTargetExponent_eq {m k : Nat} (h : m.log2 = 52 + k) (he : -1074 ≤ e) :
    shiftToTargetExponent .binary64 m e .exact =
      (ExtendedMantissa.ofMantissaAndAccuracy m .exact >>> k, e + k) := by
  have hshift : (Format.binary64.targetExponent (Float.Model.totalExponent m e) - e).toNat = k := by
    simp only [Format.targetExponent, Float.Model.totalExponent, Format.minExponent, Format.mantissaBits, h]
    omega
  simp only [shiftToTargetExponent, shiftToExponent, hshift]

theorem exists_roundWithAccuracy_eq {m k : Nat} (s : Sign) (h : m.log2 = 52 + k) (he : -1074 ≤ e) :
    ∃ q j : Nat, ∃ hq : 0 < q, 2 ^ 52 ≤ q ∧ q < 2 ^ 53 ∧ j ≤ 1 ∧ roundHalfEven m k = q * 2 ^ j ∧
      roundWithAccuracy .binary64 s m e .exact = .finite s q (e + k + j) hq := by
  obtain ⟨hlow, hhigh⟩ := roundHalfEven_bounds h
  -- The second shift has something to do only when rounding gives the next power of two.
  obtain ⟨q, j, hqlow, hqhigh, hj, hround, hshift⟩ : ∃ q j : Nat, 2 ^ 52 ≤ q ∧ q < 2 ^ 53 ∧ j ≤ 1 ∧
      roundHalfEven m k = q * 2 ^ j ∧ (roundHalfEven m k).log2 = 52 + j := by
    rcases Nat.lt_or_eq_of_le hhigh with hlt | heq
    · exact ⟨_, 0, hlow, hlt, by omega, by simp, (Nat.log2_eq_iff (by omega)).2 ⟨hlow, hlt⟩⟩
    · refine ⟨2 ^ 52, 1, by decide, by decide, by decide, heq, ?_⟩
      rw [heq]
      exact Nat.log2_two_pow
  have hq : 0 < q := by omega
  have hmantissa := (shifted_shiftRight (roundHalfEven m k) j).mantissa
  rw [hround, Nat.mul_div_cancel _ (Nat.two_pow_pos j), ← hround] at hmantissa
  refine ⟨q, j, hq, hqlow, hqhigh, hj, hround, ?_⟩
  simp only [roundWithAccuracy, shiftToTargetExponent_eq h he, roundedMantissa_shiftRight,
    shiftToTargetExponent_eq hshift (show -1074 ≤ e + k by omega), hmantissa]
  rw [dif_neg (by omega)]

/-- An unpacked float holds an integer: zero, or a mantissa of 53 bits scaled to it. -/
inductive Holds : UnpackedFloat → Int → Prop
  | zero (s : Sign) : Holds (.zero s) 0
  | finite (s : Sign) {q j : Nat} {n e : Int} {hq : 0 < q} (hlow : 2 ^ 52 ≤ q) (hhigh : q < 2 ^ 53)
    (hj : j ≤ 100) (he : e = j - 52) (hn : s.apply (q * 2 ^ j) = n * 2 ^ 52) : Holds (.finite s q e hq) n

theorem Holds.unpack_pack {n : Int} (h : Holds u n) :
    (Float.Model.pack u).unpack = u := by
  change UnpackedFloat.unpack .binary64 (UnpackedFloat.pack .binary64 u) = u
  cases h with
  | zero s =>
    rw [UnpackedFloat.pack, unpack_packedZero]
  | @finite s q j n e hq hlow hhigh hj he hn =>
    subst he
    have hlog : q.log2 = 52 := (Nat.log2_eq_iff (by omega)).2 ⟨hlow, hhigh⟩
    have hexp : ((j : Int) - 52 + (Format.binary64.exponentBias : Nat) + (52 : Nat)).toNat = j + 1023 := by
      simp [Format.exponentBias]; omega
    rw [UnpackedFloat.pack]
    simp only [hlog, hexp]
    rw [if_neg (by omega), if_pos (by rfl)]
    rw [UnpackedFloat.unpack]
    simp only [unpackSign_packComponents, Sign.ofBitVec_toBitVec, unpackExponent_packComponents,
      unpackMantissa_packComponents]
    have hexponent : (BitVec.ofNat 11 (j + 1023)).toNat = j + 1023 := by
      rw [BitVec.toNat_ofNat]
      omega
    have hinner : ∀ b : BitVec 11, b.toNat = 0 ∨ b.toNat = 2047 → BitVec.ofNat 11 (j + 1023) ≠ b := by
      rintro b hb rfl
      omega
    rw [if_neg (hinner _ (.inr rfl)), if_neg (hinner _ (.inl rfl))]
    rw [UnpackedFloat.finite.injEq]
    refine ⟨rfl, ?_, ?_⟩
    · rw [BitVec.toNat_append, ← Nat.shiftLeft_add_eq_or_of_lt (BitVec.isLt _), Nat.shiftLeft_eq]
      simp only [BitVec.toNat_ofNat]
      omega
    · rw [hexponent]
      simp [Format.exponentBias]
      omega

theorem Holds.neg {n : Int} (h : Holds u n) : Holds u.neg (-n) := by
  cases h with
  | zero s => exact .zero _
  | @finite s q j n e hq hlow hhigh hj he hn =>
    refine .finite (-s) hlow hhigh hj he ?_
    rw [Int.neg_mul, ← hn]
    cases s
    · exact (Int.neg_neg _).symm
    · rfl

/-- Mantissas of 53 bits that are scaled to the same number are the same. -/
theorem eq_of_mul_two_pow_eq {q r j k : Nat} (hq : 2 ^ 52 ≤ q) (hr : r < 2 ^ 53) (h : q * 2 ^ j = r * 2 ^ k)
    (hle : k ≤ j) : q = r ∧ j = k := by
  obtain ⟨d, rfl⟩ := Nat.exists_eq_add_of_le hle
  rw [Nat.add_comm, Nat.pow_add, ← Nat.mul_assoc, Nat.mul_left_inj (Nat.ne_of_gt (Nat.two_pow_pos k))] at h
  rcases Nat.eq_zero_or_pos d with rfl | hd
  · simpa using h
  · have : 2 ≤ 2 ^ d := Nat.le_self_pow (Nat.ne_of_gt hd) 2
    have : q * 2 ≤ q * 2 ^ d := Nat.mul_le_mul_left q this
    omega

theorem Holds.beq_iff {v : UnpackedFloat} {n m : Int} (hu : Holds u n) (hv : Holds v m) :
    u.beq v = true ↔ n = m := by
  rw [beq_iff_ne_notANumber_and_eq]
  cases hu with
  | zero s =>
    cases hv with
    | zero t => cases s <;> cases t <;> simp
    | @finite t r k m e hr hlow hhigh hk he hm =>
      have hpos : (0 : Int) < r * 2 ^ k := Int.mul_pos (by omega) (Int.pow_pos (by decide))
      cases t <;> simp [Sign.apply] at hm ⊢ <;> omega
  | @finite s q j n e hq hlow hhigh hj he hn =>
    have hpos : (0 : Int) < q * 2 ^ j := Int.mul_pos (by omega) (Int.pow_pos (by decide))
    cases hv with
    | zero t => cases s <;> simp [Sign.apply] at hn ⊢ <;> omega
    | @finite t r k m e' hr hlow' hhigh' hk he' hm =>
      have hpos' : (0 : Int) < r * 2 ^ k := Int.mul_pos (by omega) (Int.pow_pos (by decide))
      subst he he'
      have key : q * 2 ^ j = r * 2 ^ k ↔ q = r ∧ j = k := by
        refine ⟨fun h => ?_, fun ⟨hqr, hjk⟩ => by rw [hqr, hjk]⟩
        rcases Nat.le_total k j with hle | hle
        · exact eq_of_mul_two_pow_eq hlow hhigh' h hle
        · exact (eq_of_mul_two_pow_eq hlow' hhigh h.symm hle).imp Eq.symm Eq.symm
      have hscale : n = m ↔ n * 2 ^ 52 = m * 2 ^ 52 := by omega
      rw [hscale, ← hn, ← hm]
      have hcast : ((q : Int) * 2 ^ j = r * 2 ^ k) ↔ q = r ∧ j = k := by rw [← key]; norm_cast
      cases s <;> cases t <;> simp [Sign.apply, hcast] <;> omega

/-- The nearest number that has at most 53 significant bits. -/
def nearest (n : Nat) : Nat :=
  roundHalfEven n (n.log2 - 52) * 2 ^ (n.log2 - 52)

theorem nearest_of_lt (h : n < 2 ^ 53) : nearest n = n := by
  have hlog : n.log2 - 52 = 0 := by
    rcases Nat.eq_zero_or_pos n with rfl | hpos
    · rfl
    · have := (Nat.log2_lt (Nat.ne_of_gt hpos)).2 h
      omega
  simpa [nearest, hlog] using roundHalfEven_mul_two_pow n 0

theorem le_nearest (h : 2 ^ 53 ≤ n) : 2 ^ 53 ≤ nearest n := by
  have hlog : 53 ≤ n.log2 := (Nat.le_log2 (by omega)).2 h
  calc 2 ^ 53 ≤ 2 ^ (52 + (n.log2 - 52)) := Nat.pow_le_pow_right (by decide) (by omega)
    _ = 2 ^ 52 * 2 ^ (n.log2 - 52) := Nat.pow_add ..
    _ ≤ nearest n := Nat.mul_le_mul_right _ (roundHalfEven_bounds (by omega)).1

theorem holds_roundWithAccuracy {m k i : Nat} (hlog : m.log2 = 52 + k) (he : e + k = (i : Int) - 52)
    (hi : i ≤ 99) (hn : roundHalfEven m k * 2 ^ i = n * 2 ^ 52) (hmin : -1074 ≤ e) :
    Holds (roundWithAccuracy .binary64 .positive m e .exact) n := by
  obtain ⟨q, j, hq, hlow, hhigh, hj, hround, heq⟩ := exists_roundWithAccuracy_eq .positive hlog hmin
  rw [heq]
  refine .finite .positive (j := i + j) hlow hhigh (by omega) (by omega) ?_
  rw [hround, Nat.mul_right_comm, Nat.mul_assoc, ← Nat.pow_add] at hn
  simp only [Sign.apply]
  exact_mod_cast hn

theorem log2_mul_two_pow (hn : n ≠ 0) (k : Nat) : (n * 2 ^ k).log2 = n.log2 + k := by
  have hk := Nat.two_pow_pos k
  obtain ⟨hlow, hhigh⟩ := (Nat.log2_eq_iff hn).1 rfl
  refine (Nat.log2_eq_iff (Nat.mul_ne_zero hn (Nat.ne_of_gt hk))).2 ⟨?_, ?_⟩
  · rw [Nat.pow_add]
    exact Nat.mul_le_mul_right _ hlow
  · rw [Nat.add_right_comm, Nat.pow_add]
    exact Nat.mul_lt_mul_of_pos_right hhigh hk

/-- The conversion of a number below `2 ^ 53` is exact. -/
theorem holds_ofNat_of_lt (hpos : n ≠ 0) (h : n < 2 ^ 53) :
    Holds (UnpackedFloat.ofNat .binary64 n) n := by
  have hlog := (Nat.log2_lt hpos).2 h
  have hcompare : compare (n : Int) 0 = .gt := by rw [Int.compare_eq_gt]; omega
  have htarget : Format.binary64.targetExponent (Float.Model.totalExponent n 0) = n.log2 - 52 := by
    simp only [Format.targetExponent, Float.Model.totalExponent, Format.minExponent, Format.mantissaBits]
    omega
  simp only [UnpackedFloat.ofNat, UnpackedFloat.ofInt, UnpackedFloat.normalize, hcompare, UnpackedFloat.round,
    decreaseExponent, htarget, Int.toNat_natCast]
  rw [show (0 - ((n.log2 : Int) - 52)).toNat = 52 - n.log2 by omega, Nat.shiftLeft_eq]
  have hmantissa : (n * 2 ^ (52 - n.log2)).log2 = 52 + 0 := by
    rw [log2_mul_two_pow hpos]
    omega
  refine holds_roundWithAccuracy (i := n.log2) hmantissa (by omega) (by omega) ?_ (by omega)
  have := roundHalfEven_mul_two_pow (n * 2 ^ (52 - n.log2)) 0
  rw [Nat.pow_zero, Nat.mul_one] at this
  rw [this, Nat.mul_assoc, ← Nat.pow_add]
  congr 2
  omega

/-- The factor one, as it is unpacked, leaves a positive number as it is. -/
theorem Holds.mul_one (h : Holds u n) (hpos : n ≠ 0) (hlt : n < 2 ^ 53) (hone : 0 < 2 ^ 52) :
    Holds (UnpackedFloat.mul .binary64 u (.finite .positive (2 ^ 52) (-52) hone)) n := by
  cases h with
  | zero s => exact absurd rfl hpos
  | @finite s q j _ e hq hlow hhigh hj he hn =>
    cases s with
    | negative =>
      have : (0 : Int) < q * 2 ^ j := Int.mul_pos (by omega) (Int.pow_pos (by decide))
      simp only [Sign.apply] at hn
      omega
    | positive =>
      have hlog : (q * 2 ^ 52).log2 = 52 + 52 := by
        rw [log2_mul_two_pow (Nat.ne_of_gt hq), (Nat.log2_eq_iff (Nat.ne_of_gt hq)).2 ⟨hlow, hhigh⟩]
      have hscaled : q * 2 ^ j = n * 2 ^ 52 := by
        simp only [Sign.apply] at hn
        exact_mod_cast hn
      have hbound : 2 ^ (52 + j) < 2 ^ 105 := by
        have := Nat.mul_le_mul_right (2 ^ j) hlow
        rw [Nat.pow_add]
        omega
      have := (Nat.pow_lt_pow_iff_right (by decide)).1 hbound
      refine holds_roundWithAccuracy (i := j) hlog (by omega) (by omega) ?_ (by omega)
      rwa [roundHalfEven_mul_two_pow]

theorem holds_ofNat (h : n < 2 ^ 64) : Holds (Float.ofNat n).toModel.unpack (nearest n) := by
  rcases Nat.eq_zero_or_pos n with rfl | hpos
  · exact .zero .positive
  rcases Nat.lt_or_ge n (2 ^ 53) with hlt | hge
  · have hsmall : n < 2 ^ 53 ∧ 0 ≤ 22 := ⟨hlt, by decide⟩
    have hexact := holds_ofNat_of_lt (Nat.ne_of_gt hpos) hlt
    have hone : (Float.ofBits 0x3FF0000000000000).toModel.unpack =
        .finite .positive (2 ^ 52) (-52) (by decide) := rfl
    have hword : n.toUInt64.toNat = n := by simp; omega
    have hmul := hexact.mul_one (Nat.ne_of_gt hpos) hlt (by decide)
    simp only [Float.ofNat, OfScientific.ofScientific, Float.ofScientific, dif_pos hsmall]
    change Holds (Float.Model.pack (UnpackedFloat.mul .binary64
      (Float.Model.pack (UnpackedFloat.ofNat .binary64 n.toUInt64.toNat)).unpack
      (Float.ofBits 0x3FF0000000000000).toModel.unpack)).unpack _
    rw [hword, hexact.unpack_pack, hone, hmul.unpack_pack, nearest_of_lt hlt]
    exact hmul
  · have hnot : ¬(n < 2 ^ 53 ∧ 0 ≤ 22) := by omega
    have hlow : 53 ≤ n.log2 := (Nat.le_log2 (Nat.ne_of_gt hpos)).2 hge
    have hhigh : n.log2 < 64 := (Nat.log2_lt (Nat.ne_of_gt hpos)).2 h
    have hholds :
        Holds (roundWithAccuracy .binary64 .positive (n <<< 53 * 10 ^ 0) (-53 + 0) .exact) (nearest n) := by
      rw [Nat.pow_zero, Nat.mul_one, Nat.shiftLeft_eq]
      have hmantissa : (n * 2 ^ 53).log2 = 52 + (n.log2 + 1) := by
        rw [log2_mul_two_pow (Nat.ne_of_gt hpos)]
        omega
      refine holds_roundWithAccuracy (i := n.log2) hmantissa (by omega) (by omega) ?_ (by omega)
      rw [show n.log2 + 1 = 53 + (n.log2 - 52) by omega, roundHalfEven_mul_two_pow_add, nearest, Nat.mul_assoc,
        ← Nat.pow_add, show n.log2 - 52 + 52 = n.log2 by omega]
    have hmodel : Float.Model.ofScientific n 0 = Float.Model.pack
        (roundWithAccuracy .binary64 .positive (n <<< 53 * 10 ^ 0) (-53 + 0) .exact) := by
      have hbits : (0 : Int) < 2 ^ Format.binary64.exponentBits := by decide
      rw [Float.Model.ofScientific, UnpackedFloat.ofScientific, dif_neg (Nat.ne_of_gt hpos),
        if_neg (by decide), if_neg (by omega), if_pos (by decide)]
      rfl
    simp only [Float.ofNat, OfScientific.ofScientific, Float.ofScientific, dif_neg hnot]
    change Holds (Float.Model.ofScientific n 0).unpack _
    rw [hmodel, hholds.unpack_pack]
    exact hholds

/-- What an integer is rounded to when it becomes a double. -/
def nearestInt : Int → Int
  | .ofNat n => nearest n
  | .negSucc n => -nearest (n + 1)

theorem holds_ofInt {n : Int} (h : n.natAbs < 2 ^ 64) :
    Holds (Float.ofInt n).toModel.unpack (nearestInt n) := by
  cases n with
  | ofNat n => exact holds_ofNat h
  | negSucc n =>
    have hneg := (holds_ofNat (n := n + 1) h).neg
    change Holds (Float.Model.pack (Float.ofNat (n + 1)).toModel.unpack.neg).unpack _
    rw [hneg.unpack_pack]
    exact hneg

theorem nearestInt_eq_iff {n m : Int} (h : n.natAbs < 2 ^ 53) : nearestInt n = nearestInt m ↔ n = m := by
  have hsmall : ∀ n : Int, n.natAbs < 2 ^ 53 → nearestInt n = n := by
    rintro (n | n) hn
    · rw [nearestInt, nearest_of_lt (show n < 2 ^ 53 from hn)]
      rfl
    · rw [nearestInt, nearest_of_lt (show n + 1 < 2 ^ 53 from hn)]
      rfl
  have hlarge : ∀ m : Int, 2 ^ 53 ≤ m.natAbs → 2 ^ 53 ≤ (nearestInt m).natAbs := by
    rintro (m | m) hm
    · exact le_nearest hm
    · rw [nearestInt, Int.natAbs_neg]
      exact le_nearest hm
  rw [hsmall n h]
  rcases Nat.lt_or_ge m.natAbs (2 ^ 53) with hm | hm
  · rw [hsmall m hm]
  · have := hlarge m hm
    omega

end Double

/-- An integer of one of the integer types. -/
structure Integer where
  type : IntType
  number : Int
  fits : type.wrap number = number

namespace Integer

def value (a : Integer) : Value :=
  .int a.type a.number

theorem natAbs_number_lt (a : Integer) : a.number.natAbs < 2 ^ 64 := by
  obtain ⟨t, n, hfits⟩ := a
  change n.natAbs < 2 ^ 64
  cases t <;> simp [IntType.wrap, IntType.shape, Int.bmod_def] at hfits <;> omega

theorem agrees_iff (a b : Integer) :
    a.value.agrees b.value = true ↔ Double.nearestInt a.number = Double.nearestInt b.number :=
  (Double.holds_ofInt a.natAbs_number_lt).beq_iff (Double.holds_ofInt b.natAbs_number_lt)

end Integer

open Render Render.Run in
/-- Integers agree if they round to the same double. On integers this is an equivalence, an integer below `2 ^ 53`
agrees only with itself, and cases are chosen by the same rule. -/
theorem integers_agree_as_doubles (a b : Integer) :
    (a.value.agrees b.value = true ↔ Double.nearestInt a.number = Double.nearestInt b.number) ∧
    (a.number.natAbs < 2 ^ 53 → (a.value.agrees b.value = true ↔ a.number = b.number)) ∧
    Equivalence (fun x y : Integer => x.value.agrees y.value = true) ∧
    ∀ frame opening e st st', (evaluate frame e).run { st with events := .weighed opening e :: st.events } =
      some (.ok b.value, st') →
      ∃ st'', (isChosen frame opening a.value (some e)).run st =
        some (.ok (decide (Double.nearestInt a.number = Double.nearestInt b.number)), st'') := by
  refine ⟨a.agrees_iff b, fun h => (a.agrees_iff b).trans (Double.nearestInt_eq_iff h), ⟨?_, ?_, ?_⟩, ?_⟩
  · exact fun x => (x.agrees_iff x).2 rfl
  · exact fun {x y} h => (y.agrees_iff x).2 ((x.agrees_iff y).1 h).symm
  · exact fun {x y z} hxy hyz => (x.agrees_iff z).2 (((x.agrees_iff y).1 hxy).trans ((y.agrees_iff z).1 hyz))
  · intro frame opening e st st' h
    have hagrees : b.value.agrees a.value = decide (Double.nearestInt a.number = Double.nearestInt b.number) := by
      rw [Bool.eq_iff_iff, b.agrees_iff a, decide_eq_true_iff]
      exact eq_comm
    rw [isChosen, note, run_modify_bind, run_bind, h, ← hagrees]
    exact ⟨_, rfl⟩

theorem integers_agree_as_doubles_mixed :
    (⟨.int64, 2 ^ 63 - 1, by decide⟩ : Integer).value.agrees (⟨.uint64, 2 ^ 63, by decide⟩ : Integer).value = true ∧
    ¬(⟨.int8, -1, by decide⟩ : Integer).value.agrees (⟨.uint64, 2 ^ 64 - 1, by decide⟩ : Integer).value = true :=
  ⟨(integers_agree_as_doubles _ _).1.2 (by decide), fun h =>
    absurd (((integers_agree_as_doubles _ _).2.1 (by decide)).1 h) (by decide)⟩

/-- Above `2 ^ 53` an integer agrees with its neighbour. -/
theorem neighbours_agree :
    (Value.int .int64 9007199254740992).agrees (.int .int64 9007199254740993) = true := by
  decide

end PageTemplate
