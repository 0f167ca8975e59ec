import PageTemplate.Proofs.Building
import PageTemplate.Proofs.Expression.Fragments
import PageTemplate.Proofs.Markup.Spelling

/-!
The texts of directives and values. The literal fragments of an interpolated text hold no bytes but those of the
text, and the names that a clause gives to attributes are such as are read in a tag, and differ in more than letter
case.
-/

namespace PageTemplate

open Markup (isAttributeNameByte IsAttributeName)

namespace Text

theorem exists_char_of_mem_glyphs {s : Bytes} (hs : ∀ b ∈ s, b < 0x80) {g : Glyph} (hg : g ∈ glyphs s) :
    ∃ n < 128, g = .char (Char.ofNat n) := by
  induction s with
  | nil => simp [glyphs] at hg
  | cons b s ih =>
    obtain ⟨hb, hs⟩ := List.forall_mem_cons.1 hs
    rw [glyphs, if_pos hb, List.mem_cons] at hg
    rcases hg with rfl | hg
    · exact ⟨b.toNat, by simpa [UInt8.lt_iff_toNat_lt] using hb, rfl⟩
    · exact ih hs hg

theorem lower_eq (s : Bytes) : lower s = ((glyphs s).map fun g => lowerChar g.toChar).flatMap encodeChar := by
  rw [lower, mapChars, List.flatMap_map]

theorem foldChar_of_lt : ∀ n < 128, foldChar (Char.ofNat n) = lowerChar (Char.ofNat n) := by decide +kernel

theorem lower_eq_of_equalFold {s t : Bytes} (hs : ∀ b ∈ s, b < 0x80) (ht : ∀ b ∈ t, b < 0x80)
    (h : equalFold s t = true) : lower s = lower t := by
  have hfold : ∀ {s : Bytes}, (∀ b ∈ s, b < 0x80) →
      (glyphs s).map (fun g => foldChar g.toChar) = (glyphs s).map fun g => lowerChar g.toChar := by
    intro s hs
    refine List.map_congr_left fun g hg => ?_
    obtain ⟨n, hn, rfl⟩ := exists_char_of_mem_glyphs hs hg
    exact foldChar_of_lt n hn
  rw [equalFold, beq_iff_eq, hfold hs, hfold ht] at h
  rw [lower_eq, lower_eq, h]

variable {b : UInt8}

/-- The byte with the ASCII letter it stands for, if it is one, in lower case. -/
def asciiLowerByte (b : UInt8) : UInt8 := if Byte.upperA ≤ b && b ≤ Byte.upperZ then b + 32 else b

/-- The text with its ASCII letters in lower case. -/
def asciiLower (s : Bytes) : Bytes := s.map asciiLowerByte

theorem asciiLowerByte_of_le (h : 0x80 ≤ b) : asciiLowerByte b = b := by
  have hletter : ¬ (b ≤ Byte.upperZ) := by
    intro hle
    have hn : 128 ≤ b.toNat := h
    have hz : b.toNat ≤ 90 := hle
    omega
  rw [asciiLowerByte, if_neg (by simp [hletter])]

theorem asciiLowerByte_lt (h : b < 0x80) : asciiLowerByte b < 0x80 := by
  have hall : ∀ n < 128, asciiLowerByte (UInt8.ofNat n) < 0x80 := by decide +kernel
  have hbyte := hall b.toNat h
  rwa [UInt8.ofNat_toNat] at hbyte

@[simp] theorem continuation?_asciiLowerByte (b : UInt8) : continuation? (asciiLowerByte b) = continuation? b := by
  by_cases hb : b < 0x80
  · have hnone : ∀ {c : UInt8}, c < 0x80 → continuation? c = none := by
      intro c hc
      rw [continuation?, if_neg]
      simp [UInt8.not_le.2 hc]
    rw [hnone hb, hnone (asciiLowerByte_lt hb)]
  · rw [asciiLowerByte_of_le (UInt8.not_lt.1 hb)]

theorem sequence?_asciiLower (lead : UInt8) (rest : Bytes) :
    sequence? lead (asciiLower rest) = sequence? lead rest := by
  unfold sequence?
  rcases rest with _ | ⟨b, _ | ⟨c, _ | ⟨d, rest⟩⟩⟩ <;> simp [asciiLower]

/-- What is told of characters without regard to letter case is told of the text in lower case. -/
theorem map_glyphs_asciiLower {f : Char → Char}
    (hf : ∀ n < 128, f (Char.ofNat (asciiLowerByte (UInt8.ofNat n)).toNat) = f (Char.ofNat n)) (s : Bytes) :
    (glyphs (asciiLower s)).map (fun g => f g.toChar) = (glyphs s).map fun g => f g.toChar := by
  fun_induction glyphs s with
  | case1 => rw [asciiLower, List.map_nil, glyphs]
  | case2 b rest hb ih =>
    have hcons : asciiLower (b :: rest) = asciiLowerByte b :: asciiLower rest := rfl
    have hbyte := hf b.toNat hb
    rw [UInt8.ofNat_toNat] at hbyte
    rw [hcons, glyphs, if_pos (asciiLowerByte_lt hb), List.map_cons, ih, List.map_cons]
    exact congrArg (· :: _) hbyte
  | case3 b rest hb c n hsequence ih =>
    have hcons : asciiLower (b :: rest) = b :: asciiLower rest :=
      congrArg (· :: _) (asciiLowerByte_of_le (UInt8.not_lt.1 hb))
    have hdrop : (asciiLower rest).drop n = asciiLower (rest.drop n) := List.map_drop.symm
    rw [hcons, glyphs, if_neg hb, sequence?_asciiLower, hsequence]
    dsimp only
    rw [List.map_cons, hdrop, ih, List.map_cons]
  | case4 b rest hb hsequence ih =>
    have hcons : asciiLower (b :: rest) = b :: asciiLower rest :=
      congrArg (· :: _) (asciiLowerByte_of_le (UInt8.not_lt.1 hb))
    rw [hcons, glyphs, if_neg hb, sequence?_asciiLower, hsequence]
    dsimp only
    rw [List.map_cons, ih, List.map_cons]

theorem lower_eq_of_asciiLower_eq {s t : Bytes} (h : asciiLower s = asciiLower t) : lower s = lower t := by
  have hall : ∀ n < 128, lowerChar (Char.ofNat (asciiLowerByte (UInt8.ofNat n)).toNat) = lowerChar (Char.ofNat n) := by
    decide +kernel
  rw [lower_eq, lower_eq, ← map_glyphs_asciiLower hall s, ← map_glyphs_asciiLower hall t, h]

theorem equalFold_of_asciiLower_eq {s t : Bytes} (h : asciiLower s = asciiLower t) : equalFold s t = true := by
  have hall : ∀ n < 128, foldChar (Char.ofNat (asciiLowerByte (UInt8.ofNat n)).toNat) = foldChar (Char.ofNat n) := by
    decide +kernel
  rw [equalFold, beq_iff_eq, ← map_glyphs_asciiLower hall s, ← map_glyphs_asciiLower hall t, h]

end Text

/-- No two of the names agree up to the case of ASCII letters. -/
def DistinctNames (names : List Bytes) : Prop := (names.map Text.asciiLower).Nodup

instance (names : List Bytes) : Decidable (DistinctNames names) := inferInstanceAs (Decidable (List.Nodup _))

theorem DistinctNames.append_singleton {names : List Bytes} {name : Bytes} (h : DistinctNames names)
    (hnew : ∀ n ∈ names, Text.equalFold n name = false) : DistinctNames (names ++ [name]) := by
  rw [DistinctNames, List.map_append, List.nodup_append]
  refine ⟨h, List.nodup_singleton _, fun a ha b hb heq => ?_⟩
  obtain ⟨n, hn, rfl⟩ := List.mem_map.1 ha
  rw [List.map_singleton, List.mem_singleton] at hb
  have hfold := Text.equalFold_of_asciiLower_eq (heq.trans hb)
  rw [hnew n hn] at hfold
  cases hfold

namespace Expression

/-- If a fragment is literal, it is not empty and has no bytes but those of the text. -/
def Fragment.Within (text : Bytes) (f : Fragment) : Prop :=
  f.isExpression = false → f.value ≠ [] ∧ f.value ⊆ text

theorem collapseDollars_subset (s : Bytes) : collapseDollars s ⊆ s := by
  fun_induction collapseDollars s with
  | case1 | case2 => exact List.Subset.refl _
  | case3 c d s _ ih => exact List.cons_subset_cons c (List.cons_subset_cons d ih)
  | case4 c d s _ _ ih => exact List.subset_cons_of_subset c (List.cons_subset_cons d ih)
  | case5 c d s _ _ ih => exact List.cons_subset_cons c ih

theorem Covering.within {Good : Bytes → Bytes → Prop} {slashes : Bool} {text : Bytes} {i : Nat} {fs : List Fragment}
    (h : Covering Good slashes text i fs) {f : Fragment} (hf : f ∈ fs) : f.Within text := by
  intro hliteral
  obtain ⟨hlt, hle⟩ := h.tiles.of_mem hf
  have hrange : f.range text ≠ [] := by
    rw [Fragment.range, ← List.length_pos_iff, List.length_take, List.length_drop]
    omega
  rw [(h.literal f hf hliteral).1]
  refine ⟨fun hnil => hrange (eq_nil_of_collapseDollars hnil), List.Subset.trans (collapseDollars_subset _) ?_⟩
  exact List.Subset.trans (List.take_subset _ _) (List.drop_subset _ _)

theorem Registry.yields_fragments (r : Registry) (text : Bytes) :
    Yields (fun _ => True) (fun fs => (∀ f ∈ fs, f.Within text) ∧ (text ≠ [] → fs ≠ [])) (r.fragments text) := by
  refine ⟨fun fs hfs => ?_, fun _ _ => trivial⟩
  have hcovering := covering_fragments hfs
  refine ⟨fun f hf => hcovering.within hf, fun htext hnil => htext ?_⟩
  have htiles := hcovering.tiles
  rw [hnil] at htiles
  exact List.length_eq_zero_iff.1 htiles.symm

end Expression

namespace Clause

variable {name : Bytes} {entries : List AttributeEntry}

/-- The name of an attribute as a clause gives it. -/
structure IsName (name : Bytes) : Prop where
  ne_nil : name ≠ []
  byte : ∀ b ∈ name, isAttributePart b = true

theorem isAttributePart_byte : ∀ n < 256, isAttributePart (UInt8.ofNat n) = true →
    isAttributeNameByte (UInt8.ofNat n) = true ∧ UInt8.ofNat n ≠ Byte.nul ∧ UInt8.ofNat n < 0x80 := by
  decide +kernel

theorem IsName.spelled (h : IsName name) {b : UInt8} (hb : b ∈ name) :
    isAttributeNameByte b = true ∧ b ≠ Byte.nul ∧ b < 0x80 := by
  have hbyte := isAttributePart_byte b.toNat b.toNat_lt
  rw [UInt8.ofNat_toNat] at hbyte
  exact hbyte (h.byte b hb)

theorem IsName.isAttributeName (h : IsName name) : IsAttributeName name :=
  ⟨h.ne_nil, fun _ hb => (h.spelled hb).1, fun hnul => (h.spelled hnul).2.1 rfl⟩

theorem isName_of_readAttribute? {s : Bytes} {i : Nat} (h : readAttribute? s = some (name, i)) : IsName name := by
  unfold readAttribute? at h
  split at h
  · next hstart =>
    obtain ⟨_, _, he⟩ := Option.map_eq_some_iff.1 h
    cases he
    refine ⟨?_, fun b hb => List.mem_takeWhile_imp hb⟩
    cases s with
    | nil => simp at hstart
    | cons c s =>
      have hc : isAttributePart c = true := by
        simp only [List.head?_cons, Option.map_some, Option.getD_some, isAttributeStart, Bool.or_eq_true] at hstart
        simp only [isAttributePart, Byte.isIdentifierPart, Bool.or_eq_true]
        exact .inl (.inl (hstart.imp_left .inl))
      simp [hc]
  · cases h

/-- The names of the entries are such as clauses give, and agree up to case with none earlier or seen. -/
def Distinct (seen : List Bytes) : List AttributeEntry → Prop
  | [] => True
  | entry :: entries =>
    match entry.name with
    | none => Distinct seen entries
    | some name => IsName name ∧ Text.lower name ∉ seen ∧ Distinct (Text.lower name :: seen) entries

theorem yields_attributeEntries (seen : List Bytes) (parts : List Markup.Token) :
    Yields (fun _ => True) (Distinct seen) (attributeEntries seen parts) := by
  induction parts generalizing seen with
  | nil => exact .ok trivial
  | cons part parts ih =>
    unfold attributeEntries
    split
    · exact .bind (ih seen) fun entries hentries => .ok hentries
    · next name i hread =>
      dsimp only
      split
      · exact .error trivial
      · next hseen =>
        refine .bind (ih _) fun entries hentries => .ok ⟨isName_of_readAttribute? hread, ?_, hentries⟩
        simpa using hseen

theorem distinct_of_attributes {t : Markup.Token} (h : attributes t = .ok entries) : Distinct [] entries :=
  (yields_attributeEntries [] (split t)).1 entries h

theorem Distinct.isName {seen : List Bytes} (h : Distinct seen entries)
    {entry : AttributeEntry} (hentry : entry ∈ entries) (hname : entry.name = some name) :
    IsName name := by
  induction entries generalizing seen with
  | nil => simp at hentry
  | cons entry' entries ih =>
    unfold Distinct at h
    rcases List.mem_cons.1 hentry with rfl | hentry
    · rw [hname] at h
      exact h.1
    · split at h
      · exact ih h hentry
      · exact ih h.2.2 hentry

end Clause

end PageTemplate
