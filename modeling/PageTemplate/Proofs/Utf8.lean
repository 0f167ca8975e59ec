import Mathlib.Data.List.TakeWhile
import PageTemplate.Text.Utf8

/-!
Reading UTF-8 loses nothing: the units of a text, written again, are the text. An ASCII byte is a unit of its own,
whatever stands around it.
-/

namespace PageTemplate.Text

variable {n x y v : Nat} {b a c : UInt8}

/-! ### Characters and their bytes -/

theorem encodeChar_eq (c : Char) : encodeChar c = String.utf8EncodeChar c := by
  rw [encodeChar, utf8, String.toUTF8, String.toByteArray_singleton, List.utf8Encode_singleton]
  simp

theorem toNat_ofNat (h : n < 0xD800 ∨ 0xDFFF < n ∧ n < 0x110000) : (Char.ofNat n).val.toNat = n := by
  have hvalid : n.isValidChar := h
  rw [Char.ofNat, dif_pos hvalid]
  rfl

theorem encodeChar_ascii (h : b < 0x80) : encodeChar (Char.ofNat b.toNat) = [b] := by
  have hb : b.toNat < 0x80 := h
  have hn : (Char.ofNat b.toNat).val.toNat = b.toNat := toNat_ofNat (.inl (by omega))
  have hle : b.toNat ≤ 0x7f := by omega
  rw [encodeChar_eq, String.utf8EncodeChar]
  simp only [hn, if_pos hle, UInt8.ofNat_toNat]

theorem continuation?_eq_some (h : continuation? b = some x) : x < 64 ∧ b.toNat = x + 0x80 := by
  unfold continuation? at h
  split at h
  · next hb =>
    simp only [Bool.and_eq_true, decide_eq_true_eq] at hb
    simp only [Option.some.injEq] at h
    have hlo : 0x80 ≤ b.toNat := hb.1
    have hhi : b.toNat < 0xC0 := hb.2
    omega
  · cases h

theorem ofNat_eq_of_toNat_eq (h : b.toNat = n) : UInt8.ofNat n = b := by
  rw [← h, UInt8.ofNat_toNat]

theorem encodeChar_two (ha : a.toNat = x + 0xC0) (hb : b.toNat = y + 0x80) (hy : y < 64) (hv : v = x * 64 + y)
    (hlo : 0x80 ≤ v) (hhi : v < 0x800) : encodeChar (Char.ofNat v) = [a, b] := by
  have hn : (Char.ofNat v).val.toNat = v := toNat_ofNat (.inl (by omega))
  rw [encodeChar_eq, String.utf8EncodeChar]
  simp only [hn]
  rw [if_neg (by omega), if_pos (by omega)]
  simp only [List.cons.injEq, and_true]
  exact ⟨ofNat_eq_of_toNat_eq (by omega), ofNat_eq_of_toNat_eq (by omega)⟩

theorem encodeChar_three {z : Nat} (ha : a.toNat = x + 0xE0) (hb : b.toNat = y + 0x80) (hc : c.toNat = z + 0x80)
    (hy : y < 64) (hz : z < 64) (hv : v = x * 4096 + y * 64 + z) (hlo : 0x800 ≤ v) (hhi : v < 0x10000)
    (hvalid : v < 0xD800 ∨ 0xE000 ≤ v) : encodeChar (Char.ofNat v) = [a, b, c] := by
  have hn : (Char.ofNat v).val.toNat = v := toNat_ofNat (by omega)
  rw [encodeChar_eq, String.utf8EncodeChar]
  simp only [hn]
  rw [if_neg (by omega), if_neg (by omega), if_pos (by omega)]
  simp only [List.cons.injEq, and_true]
  exact ⟨ofNat_eq_of_toNat_eq (by omega), ofNat_eq_of_toNat_eq (by omega), ofNat_eq_of_toNat_eq (by omega)⟩

theorem encodeChar_four {d : UInt8} {z w : Nat} (ha : a.toNat = x + 0xF0) (hb : b.toNat = y + 0x80)
    (hc : c.toNat = z + 0x80) (hd : d.toNat = w + 0x80) (hy : y < 64) (hz : z < 64) (hw : w < 64)
    (hv : v = x * 262144 + y * 4096 + z * 64 + w) (hlo : 0x10000 ≤ v) (hhi : v < 0x110000) :
    encodeChar (Char.ofNat v) = [a, b, c, d] := by
  have hn : (Char.ofNat v).val.toNat = v := toNat_ofNat (by omega)
  rw [encodeChar_eq, String.utf8EncodeChar]
  simp only [hn]
  rw [if_neg (by omega), if_neg (by omega), if_neg (by omega)]
  simp only [List.cons.injEq, and_true]
  exact ⟨ofNat_eq_of_toNat_eq (by omega), ofNat_eq_of_toNat_eq (by omega), ofNat_eq_of_toNat_eq (by omega),
    ofNat_eq_of_toNat_eq (by omega)⟩

theorem sequence?_eq_some {lead : UInt8} {rest : Bytes} {c : Char} (h : sequence? lead rest = some (c, n)) :
    encodeChar c = lead :: rest.take n ∧ n ≤ rest.length := by
  unfold sequence? at h
  split at h
  · cases h
  next hlead =>
  have hlead : 0xC2 ≤ lead.toNat := UInt8.not_lt.1 hlead
  split at h
  · next htwo =>
    have htwo : lead.toNat < 0xE0 := htwo
    split at h
    · simp only [Option.bind_eq_bind, Option.bind_eq_some_iff, Option.pure_def, Option.some.injEq, Prod.mk.injEq] at h
      obtain ⟨x, hx, rfl, rfl⟩ := h
      obtain ⟨hx, hb⟩ := continuation?_eq_some hx
      exact ⟨encodeChar_two (x := lead.toNat - 0xC0) (by omega) hb hx rfl (by omega) (by omega),
        by simp⟩
    · cases h
  next hthree =>
  have hthree : 0xE0 ≤ lead.toNat := UInt8.not_lt.1 hthree
  split at h
  · next hfour =>
    have hfour : lead.toNat < 0xF0 := hfour
    split at h
    · simp only [Option.bind_eq_bind, Option.bind_eq_some_iff, Option.pure_def] at h
      obtain ⟨x, hx, y, hy, h⟩ := h
      obtain ⟨hx, hb⟩ := continuation?_eq_some hx
      obtain ⟨hy, hc⟩ := continuation?_eq_some hy
      split at h
      · cases h
      next hrange =>
      simp only [Bool.or_eq_true, Bool.and_eq_true, decide_eq_true_eq] at hrange
      cases h
      exact ⟨encodeChar_three (x := lead.toNat - 0xE0) (by omega) hb hc hx hy rfl (by omega) (by omega) (by omega),
        by simp⟩
    · cases h
  next hfour =>
  have hfour : 0xF0 ≤ lead.toNat := UInt8.not_lt.1 hfour
  split at h
  · split at h
    · simp only [Option.bind_eq_bind, Option.bind_eq_some_iff, Option.pure_def] at h
      obtain ⟨x, hx, y, hy, z, hz, h⟩ := h
      obtain ⟨hx, hb⟩ := continuation?_eq_some hx
      obtain ⟨hy, hc⟩ := continuation?_eq_some hy
      obtain ⟨hz, hd⟩ := continuation?_eq_some hz
      split at h
      · cases h
      next hrange =>
      simp only [Bool.or_eq_true, decide_eq_true_eq] at hrange
      cases h
      exact ⟨encodeChar_four (x := lead.toNat - 0xF0) (by omega) hb hc hd hx hy hz rfl (by omega) (by omega),
        by simp⟩
    · cases h
  · cases h

theorem glyphs_cons (hc : c < 0x80) (s : Bytes) :
    glyphs (c :: s) = .char (Char.ofNat c.toNat) :: glyphs s := by
  rw [glyphs, if_pos hc]

theorem sequence?_append (hc : c < 0x80) (lead : UInt8) (s t : Bytes) :
    sequence? lead (s ++ c :: t) = sequence? lead s := by
  have hnone : continuation? c = none := by
    have hlt : ¬ (0x80 : UInt8) ≤ c := UInt8.not_le.2 hc
    simp [continuation?, hlt]
  unfold sequence?
  rcases s with _ | ⟨b₁, _ | ⟨b₂, _ | ⟨b₃, s⟩⟩⟩ <;> cases t <;> simp [hnone]
  all_goals grind

theorem glyphs_append (hc : c < 0x80) (s t : Bytes) :
    glyphs (s ++ c :: t) = glyphs s ++ glyphs (c :: t) := by
  induction hn : s.length using Nat.strongRecOn generalizing s with
  | ind n ih =>
    cases s with
    | nil => simp [glyphs]
    | cons b s =>
      simp only [List.length_cons] at hn
      rw [List.cons_append, glyphs, glyphs, sequence?_append hc]
      split
      · rw [ih s.length (by omega) s rfl, List.cons_append]
      · split
        · next d k hsequence =>
          obtain ⟨-, hk⟩ := sequence?_eq_some hsequence
          have hlength : (s.drop k).length < n := by
            rw [List.length_drop]
            omega
          rw [List.drop_append_of_le_length hk, ih _ hlength _ rfl, List.cons_append]
        · rw [ih s.length (by omega) s rfl, List.cons_append]

@[simp] theorem ofGlyphs_glyphs (s : Bytes) : ofGlyphs (glyphs s) = s := by
  fun_induction glyphs s with
  | case1 => rfl
  | case2 b rest hb ih => rw [ofGlyphs, List.flatMap_cons, ← ofGlyphs, ih, Glyph.bytes, encodeChar_ascii hb]; rfl
  | case3 b rest hb c n hsequence ih =>
    obtain ⟨hbytes, -⟩ := sequence?_eq_some hsequence
    rw [ofGlyphs, List.flatMap_cons, ← ofGlyphs, ih, Glyph.bytes, hbytes, List.cons_append, List.take_append_drop]
  | case4 b rest hb hsequence ih => rw [ofGlyphs, List.flatMap_cons, ← ofGlyphs, ih]; rfl

end PageTemplate.Text
