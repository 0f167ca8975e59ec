import Mathlib.Data.List.Basic
import PageTemplate.Value.Text

/-!
Escaped texts. Reading the entities of a text back is defined here apart from how they are written; reading
back what was escaped gives the text, whatever follows it, and an escaped attribute value holds no quote of
its kind.
-/

namespace PageTemplate

variable {c q : UInt8}

/-- The entities that stand for bytes in escaped texts. -/
def entities : List (Bytes × UInt8) :=
  [(utf8 "&lt;", Byte.less), (utf8 "&gt;", Byte.greater), (utf8 "&quot;", Byte.doubleQuote),
    (utf8 "&#39;", Byte.singleQuote), (utf8 "&amp;", Byte.ampersand)]

/-- The text with its entities read, from left to right. -/
def decode : Bytes → Bytes
  | [] => []
  | c :: s =>
    match entities.find? fun e => e.1.isPrefixOf (c :: s) with
    | some e => e.2 :: decode (s.drop (e.1.length - 1))
    | none => c :: decode s
termination_by s => s.length

theorem exists_entity_eq : ∀ e ∈ entities, ∃ w, e.1 = Byte.ampersand :: w := by
  simp only [entities, List.forall_mem_cons]
  exact ⟨⟨_, rfl⟩, ⟨_, rfl⟩, ⟨_, rfl⟩, ⟨_, rfl⟩, ⟨_, rfl⟩, nofun⟩

theorem count_ampersand : ∀ e ∈ entities, e.1.count Byte.ampersand = 1 := by decide

theorem decode_cons (hc : c ≠ Byte.ampersand) (t : Bytes) : decode (c :: t) = c :: decode t := by
  have hnone : entities.find? (fun e => e.1.isPrefixOf (c :: t)) = none := by
    rw [List.find?_eq_none]
    intro e he
    obtain ⟨w, hw⟩ := exists_entity_eq e he
    simp [hw, List.isPrefixOf, Ne.symm hc]
  rw [decode, hnone]

theorem eq_of_entity_begins : ∀ e ∈ entities, ∀ e' ∈ entities, e.1 <+: e'.1 → e = e' := by decide

theorem decode_entity {e : Bytes × UInt8} (he : e ∈ entities) (t : Bytes) :
    decode (e.1 ++ t) = e.2 :: decode t := by
  have hfind : entities.find? (fun e' => e'.1.isPrefixOf (e.1 ++ t)) = some e := by
    cases hfound : entities.find? fun e' => e'.1.isPrefixOf (e.1 ++ t) with
    | none =>
      have hprefix := List.isPrefixOf_iff_prefix.2 (List.prefix_append e.1 t)
      exact absurd hprefix (List.find?_eq_none.1 hfound e he)
    | some e' =>
      have hmem := List.mem_of_find?_eq_some hfound
      have hprefix : e'.1 <+: e.1 ++ t := by simpa using List.find?_some hfound
      rcases List.prefix_or_prefix_of_prefix hprefix (List.prefix_append e.1 t) with h | h
      · rw [eq_of_entity_begins e' hmem e he h]
      · rw [eq_of_entity_begins e he e' hmem h]
  obtain ⟨w, hw⟩ := exists_entity_eq e he
  rw [hw, List.cons_append] at hfind ⊢
  rw [decode, hfind]
  simp [hw]

/-! ### Reserved bytes -/

/-- Bytes are written as their entities if they are reserved, and as they are otherwise. -/
def Spells (reserved : List UInt8) (write : UInt8 → Bytes) : Prop :=
  ∀ b, b ∈ reserved ∧ (∃ e ∈ entities, e.2 = b ∧ write b = e.1) ∨ b ∉ reserved ∧ write b = [b]

/-- The bytes that cannot stand for themselves in a text. -/
def markupBytes : List UInt8 := [Byte.ampersand, Byte.less, Byte.greater]

def reservedQuote (quote : Bytes) : UInt8 := if quote = [Byte.singleQuote] then Byte.singleQuote else Byte.doubleQuote

theorem reservedQuote_of_isQuote (hq : Byte.isQuote q = true) : reservedQuote [q] = q := by
  have hq : q = Byte.singleQuote ∨ q = Byte.doubleQuote := by simpa [Byte.isQuote] using hq
  rcases hq with rfl | rfl <;> rfl

theorem notMem_entity (hc : Byte.isQuote c = true ∨ c = Byte.less ∨ c = Byte.greater) : ∀ e ∈ entities, c ∉ e.1 := by
  simp only [Byte.isQuote, Bool.or_eq_true, beq_iff_eq] at hc
  rcases hc with (rfl | rfl) | rfl | rfl <;> decide

namespace Spells

variable {reserved : List UInt8} {write : UInt8 → Bytes}

theorem cons {w : Bytes} (hw : (w, c) ∈ entities) (h : Spells reserved write) :
    Spells (c :: reserved) fun b => if b = c then w else write b := by
  intro b
  by_cases hb : b = c
  · exact .inl ⟨by simp [hb], _, hw, hb.symm, if_pos hb⟩
  · simpa [hb] using h b

variable (h : Spells reserved write)
include h

theorem notMem (hc : c ∈ reserved) (hentity : ∀ e ∈ entities, c ∉ e.1) (s : Bytes) : c ∉ s.flatMap write := by
  intro hmem
  obtain ⟨b, _, hb⟩ := List.mem_flatMap.1 hmem
  rcases h b with ⟨_, e, he, _, hwrite⟩ | ⟨hnot, hwrite⟩
  · exact hentity e he (hwrite ▸ hb)
  · rw [hwrite, List.mem_singleton] at hb
    exact hnot (hb ▸ hc)

variable (hampersand : Byte.ampersand ∈ reserved)
include hampersand

/-- A text so written is read back, whatever follows. -/
theorem decode_append (s t : Bytes) : decode (s.flatMap write ++ t) = s ++ decode t := by
  induction s with
  | nil => rfl
  | cons b s ih =>
    rw [List.flatMap_cons, List.append_assoc, List.cons_append, ← ih]
    rcases h b with ⟨_, e, he, rfl, hwrite⟩ | ⟨hnot, hwrite⟩
    · rw [hwrite, decode_entity he]
    · rw [hwrite]
      have hb : b ≠ Byte.ampersand := by
        rintro rfl
        exact hnot hampersand
      exact decode_cons hb _

/-- In a text so written every ampersand begins the entity of a reserved byte. -/
theorem entity_of_ampersand {s before after : Bytes} (ht : s.flatMap write = before ++ Byte.ampersand :: after) :
    ∃ e ∈ entities, e.2 ∈ reserved ∧ e.1 <+: Byte.ampersand :: after := by
  induction s generalizing before with
  | nil => simp at ht
  | cons b s ih =>
    rw [List.flatMap_cons] at ht
    rcases List.append_eq_append_iff.1 ht with ⟨rest, _, hrest⟩ | ⟨rest, hhead, htail⟩
    · exact ih hrest
    · cases rest with
      | nil => exact @ih [] htail.symm
      | cons c rest =>
        -- The ampersand is one of the bytes written for `b`, and of these only the first can be one.
        obtain ⟨rfl, hafter⟩ := List.cons.inj htail
        rcases h b with ⟨hb, e, he, rfl, hwrite⟩ | ⟨hnot, hwrite⟩
        · have honce := count_ampersand e he
          obtain ⟨w, hw⟩ := exists_entity_eq e he
          cases before with
          | nil => exact ⟨e, he, hb, s.flatMap write, by rw [← hwrite, hhead, hafter]; rfl⟩
          | cons c before =>
            rw [← hwrite, hhead] at hw honce
            simp [(List.cons.inj hw).1] at honce
        · have hmem : Byte.ampersand ∈ write b := by simp [hhead]
          rw [hwrite, List.mem_singleton] at hmem
          exact absurd (hmem ▸ hampersand) hnot

end Spells

theorem spells_escapeByte : Spells markupBytes escapeByte := by
  have hnone : Spells [] fun b => [b] := fun b => .inr ⟨List.not_mem_nil, rfl⟩
  have hgreater := hnone.cons (w := utf8 "&gt;") (c := Byte.greater) (by decide)
  have hless := hgreater.cons (w := utf8 "&lt;") (c := Byte.less) (by decide)
  exact hless.cons (w := utf8 "&amp;") (by decide)

theorem spells_escapeAttributeByte (quote : Bytes) :
    Spells (reservedQuote quote :: markupBytes) (escapeAttributeByte quote) := by
  unfold escapeAttributeByte reservedQuote
  split
  · exact spells_escapeByte.cons (w := utf8 "&#39;") (by decide)
  · exact spells_escapeByte.cons (w := utf8 "&quot;") (by decide)

theorem decode_escapeAttribute_append (s quote t : Bytes) : decode (escapeAttribute s quote ++ t) = s ++ decode t :=
  (spells_escapeAttributeByte quote).decode_append (by simp [markupBytes]) s t

theorem decode_escapeAttribute (s quote : Bytes) : decode (escapeAttribute s quote) = s := by
  simpa [decode] using decode_escapeAttribute_append s quote []

theorem notMem_escapeAttribute (hq : Byte.isQuote q = true) (s : Bytes) : q ∉ escapeAttribute s [q] :=
  (spells_escapeAttributeByte [q]).notMem (by simp [reservedQuote_of_isQuote hq]) (notMem_entity (.inl hq)) s

/-- The text does not end in the beginning of an entity. -/
def Finished (s : Bytes) : Prop :=
  ∀ e ∈ entities, ∀ n < e.1.length, 0 < n → ¬ e.1.take n <:+ s

instance (s : Bytes) : Decidable (Finished s) :=
  inferInstanceAs (Decidable (∀ e ∈ entities, ∀ n < e.1.length, 0 < n → ¬ e.1.take n <:+ s))

theorem Finished.of_suffix {s s' : Bytes} (h : Finished s) (hs : s' <:+ s) : Finished s' :=
  fun e he n hn hpos hsuffix => h e he n hn hpos (hsuffix.trans hs)

theorem decode_append {s : Bytes} (h : Finished s) (t : Bytes) : decode (s ++ t) = decode s ++ decode t := by
  fun_induction decode s with
  | case1 => simp
  | case2 c s e hfound ih =>
    have hmem := List.mem_of_find?_eq_some hfound
    have hprefix : e.1 <+: c :: s := by simpa using List.find?_some hfound
    obtain ⟨rest, hrest⟩ := hprefix
    have hdrop : s.drop (e.1.length - 1) = rest := by
      obtain ⟨w, hw⟩ := exists_entity_eq e hmem
      rw [hw, List.cons_append] at hrest
      rw [hw, ← (List.cons.inj hrest).2, List.length_cons, Nat.add_sub_cancel, List.drop_left]
    rw [hdrop] at ih ⊢
    rw [← hrest, List.append_assoc, decode_entity hmem, ih (h.of_suffix ⟨e.1, hrest⟩), List.cons_append]
  | case3 c s hnone ih =>
    have hnone' : entities.find? (fun e => e.1.isPrefixOf (c :: (s ++ t))) = none := by
      rw [List.find?_eq_none] at hnone ⊢
      intro e he hprefix
      have hwhole : e.1 <+: (c :: s) ++ t := List.isPrefixOf_iff_prefix.1 hprefix
      -- The entity ends within the text, or the whole text is the beginning of the entity.
      rcases List.prefix_or_prefix_of_prefix hwhole (List.prefix_append (c :: s) t) with hin | hout
      · exact hnone e he (List.isPrefixOf_iff_prefix.2 hin)
      · rcases Nat.lt_or_ge (c :: s).length e.1.length with hlt | hge
        · have htake : c :: s = e.1.take (c :: s).length := List.prefix_iff_eq_take.1 hout
          exact h e he _ hlt (Nat.succ_pos _) (htake ▸ List.suffix_refl _)
        · rw [hout.eq_of_length_le hge] at hnone
          exact hnone e he (List.isPrefixOf_iff_prefix.2 (List.prefix_refl _))
    rw [List.cons_append, decode, hnone', ih (h.of_suffix (List.suffix_cons c s)), List.cons_append]

end PageTemplate
