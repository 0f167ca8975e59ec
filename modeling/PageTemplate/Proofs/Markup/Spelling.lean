import Mathlib.Data.FinEnum
import Mathlib.Data.List.Basic
import PageTemplate.Proofs.Markup.Tree

/-!
Start tags as they are written. A spelling is what is written for an attribute, wherever it stands. `Spelling.Legible`
describes those that can be read off a tag, and a tag put together from such spellings is read back as the same ones.
The main statements are `tokenize_written` and `legible_of_mem_elementHeads`.
-/

namespace PageTemplate.Markup

variable {w tail name s source filename : Bytes} {p : UInt8 → Bool} {b c : UInt8} {a : Spelling} {as : List Spelling}
variable {q : UInt8} {value : Bytes} {r : TokenKind × Nat} {tag : Tag} {v : AttributeValue} {tok : Token} {i : Nat}

/-- The bytes of an attribute name. A zero byte ends the reading of a tag. -/
structure IsAttributeName (name : Bytes) : Prop where
  ne_nil : name ≠ []
  byte : ∀ b ∈ name, isAttributeNameByte b = true
  nul : Byte.nul ∉ name

namespace Spelling

/-- The bytes of an attribute that no quotes are around. -/
def outside (a : Spelling) : Bytes :=
  a.space ++ a.name ++ a.value.eq ++ if a.value.quote = [] then a.value.value else []

/-- The attribute can be read in a tag: outside of quotes, no byte gives the tag up. -/
structure Legible (a : Spelling) : Prop extends a.Readable where
  outside : ∀ b ∈ a.outside, b ≠ Byte.nul ∧ b ≠ Byte.less

end Spelling

structure IsTagName (name : Bytes) : Prop where
  start : ∃ c s, name = c :: s ∧ isNameStart c = true
  byte : ∀ b ∈ name, isNameByte b = true

/-! ### The extent of a tag -/

/-- The last byte that is not blank, after a text. -/
def lastSolid (last : UInt8) (w : Bytes) : UInt8 :=
  w.foldl (fun l b => if Byte.isBlank b then l else b) last

@[simp] theorem lastSolid_append (last : UInt8) (w w' : Bytes) :
    lastSolid last (w ++ w') = lastSolid (lastSolid last w) w' := List.foldl_append

theorem lastSolid_of_blank (hw : ∀ b ∈ w, Byte.isBlank b = true) (last : UInt8) :
    lastSolid last w = last := by
  induction w generalizing last with
  | nil => rfl
  | cons b w ih =>
    obtain ⟨hb, hw⟩ := List.forall_mem_cons.1 hw
    rw [lastSolid, List.foldl_cons, if_pos hb]
    exact ih hw last

/-- A text in which no quotes open and no tag ends is passed over, unless a byte gives the reading up. -/
theorem tagRest_append_plain (hw : ∀ b ∈ w, b ≠ Byte.greater ∧ Byte.isQuote b = false) (last : UInt8) (s : Bytes) :
    tagRest none last (w ++ s) =
      if ∀ b ∈ w, b ≠ Byte.nul ∧ b ≠ Byte.less then
        (tagRest none (lastSolid last w) s).map fun r => (r.1, r.2 + w.length)
      else none := by
  induction w generalizing last with
  | nil => simp [lastSolid]
  | cons b w ih =>
    obtain ⟨⟨hgreater, hquote⟩, hw⟩ := List.forall_mem_cons.1 hw
    by_cases hb : b = Byte.nul ∨ b = Byte.less
    · have hstop : ¬ ∀ b' ∈ b :: w, b' ≠ Byte.nul ∧ b' ≠ Byte.less := by
        intro h
        obtain ⟨h₁, h₂⟩ := h b List.mem_cons_self
        exact hb.elim h₁ h₂
      rw [if_neg hstop, List.cons_append, tagRest]
      simp [hb]
    · have hstep : tagRest none last (b :: (w ++ s)) =
          (tagRest none (if Byte.isBlank b then last else b) (w ++ s)).map fun r => (r.1, r.2 + 1) := by
        rw [not_or] at hb
        simp [tagRest, hb.1, hb.2, hgreater, hquote]
      have hiff : (∀ b' ∈ b :: w, b' ≠ Byte.nul ∧ b' ≠ Byte.less) ↔
          ∀ b' ∈ w, b' ≠ Byte.nul ∧ b' ≠ Byte.less := by
        rw [List.forall_mem_cons]
        exact and_iff_right ⟨fun h => hb (.inl h), fun h => hb (.inr h)⟩
      rw [List.cons_append, hstep, ih hw]
      simp only [hiff]
      split
      · simp [lastSolid, Option.map_map, Function.comp_def, Nat.add_assoc]
      · rfl

theorem tagRest_append_quoted (hvalue : q ∉ value) (last : UInt8) (s : Bytes) :
    tagRest (some q) last (value ++ q :: s) =
      (tagRest none q s).map fun r => (r.1, r.2 + (value.length + 1)) := by
  induction value with
  | nil => simp [tagRest]
  | cons b value ih =>
    obtain ⟨hb, hvalue⟩ := not_or.1 (mt List.mem_cons.2 hvalue)
    rw [List.cons_append, tagRest, if_neg (Ne.symm hb), ih hvalue]
    simp [Option.map_map, Function.comp_def, Nat.add_assoc]

theorem ne_of_class (hb : p b = true) (hc : p c = false) : b ≠ c := by
  rintro rfl
  simp [hc] at hb

theorem plain_of_class (hgreater : p Byte.greater = false) (hsingle : p Byte.singleQuote = false)
    (hdouble : p Byte.doubleQuote = false) (h : p b = true) :
    b ≠ Byte.greater ∧ Byte.isQuote b = false := by
  simp [Byte.isQuote, ne_of_class h hgreater, ne_of_class h hsingle, ne_of_class h hdouble]

theorem plain_of_isBlank (h : Byte.isBlank b = true) : b ≠ Byte.greater ∧ Byte.isQuote b = false :=
  plain_of_class rfl rfl rfl h

theorem not_isBlank_of_isQuote (h : Byte.isQuote q = true) : Byte.isBlank q = false := by
  simp only [Byte.isQuote, Bool.or_eq_true, beq_iff_eq] at h
  rcases h with rfl | rfl <;> rfl

namespace AttributeValue.Readable

variable {v : AttributeValue} (hv : v.Readable)
include hv

theorem plain_eq : ∀ b ∈ v.eq, b ≠ Byte.greater ∧ Byte.isQuote b = false := by
  have heq : ∀ {before after : Bytes}, (∀ b ∈ before, Byte.isBlank b = true) →
      (∀ b ∈ after, Byte.isBlank b = true) → ∀ b ∈ before ++ Byte.equals :: after,
        b ≠ Byte.greater ∧ Byte.isQuote b = false := by
    intro before after hbefore hafter b hb
    simp only [List.mem_append, List.mem_cons] at hb
    rcases hb with hb | rfl | hb
    · exact plain_of_isBlank (hbefore b hb)
    · decide
    · exact plain_of_isBlank (hafter b hb)
  cases hv with
  | absent => simp
  | quoted hbefore hafter => exact heq hbefore hafter
  | bare hbefore hafter => exact heq hbefore hafter

end AttributeValue.Readable

theorem Spelling.lastSolid_text_quoted (ha : a.value.quote = [q]) (hq : Byte.isQuote q = true) (last : UInt8) :
    lastSolid last a.text = q := by
  rw [text, AttributeValue.text, ha, ← List.append_assoc, ← List.append_assoc, lastSolid_append]
  exact if_neg (by simp [not_isBlank_of_isQuote hq])

/-- An attribute is passed over, unless a byte outside of its quotes gives the reading up. -/
theorem Spelling.Readable.tagRest_append (ha : a.Readable) (last : UInt8) (s : Bytes) :
    tagRest none last (a.text ++ s) =
      if ∀ b ∈ a.outside, b ≠ Byte.nul ∧ b ≠ Byte.less then
        (tagRest none (lastSolid last a.text) s).map fun r => (r.1, r.2 + a.text.length)
      else none := by
  obtain ⟨space, name, v⟩ := a
  have hlead : ∀ b ∈ space ++ name ++ v.eq, b ≠ Byte.greater ∧ Byte.isQuote b = false := by
    intro b hb
    simp only [List.mem_append] at hb
    rcases hb with (hb | hb) | hb
    · exact plain_of_isBlank (ha.space b hb)
    · exact plain_of_class rfl rfl rfl (ha.name b hb)
    · exact ha.value.plain_eq b hb
  -- Without quotes, the whole attribute is plain; with quotes, what comes before them is.
  have hbare : v.quote = [] → (∀ b ∈ v.value, b ≠ Byte.greater ∧ Byte.isQuote b = false) →
      tagRest none last (text ⟨space, name, v⟩ ++ s) =
        if ∀ b ∈ outside ⟨space, name, v⟩, b ≠ Byte.nul ∧ b ≠ Byte.less then
          (tagRest none (lastSolid last (text ⟨space, name, v⟩)) s).map
            fun r => (r.1, r.2 + (text ⟨space, name, v⟩).length)
        else none := by
    intro hquote hvalue
    have htext : text ⟨space, name, v⟩ = space ++ name ++ v.eq ++ v.value := by
      simp [text, AttributeValue.text, hquote]
    have houtside : outside ⟨space, name, v⟩ = space ++ name ++ v.eq ++ v.value := by
      simp [outside, hquote]
    rw [htext, houtside]
    exact tagRest_append_plain (List.forall_mem_append.2 ⟨hlead, hvalue⟩) last s
  have hvalue := ha.value
  cases hvalue with
  | absent => exact hbare rfl (by simp)
  | bare _ _ _ hvalue => exact hbare rfl fun b hb => plain_of_class rfl rfl rfl (hvalue b hb)
  | @quoted before after value q _ hafter hq hvalue =>
    have hlast : lastSolid last (space ++ name ++ (before ++ Byte.equals :: after)) = Byte.equals := by
      rw [← List.append_assoc, lastSolid_append]
      exact lastSolid_of_blank hafter Byte.equals
    have htext : text ⟨space, name, ⟨before ++ Byte.equals :: after, [q], value⟩⟩ ++ s =
        space ++ name ++ (before ++ Byte.equals :: after) ++ q :: (value ++ q :: s) := by
      simp [text, AttributeValue.text]
    have hopen : tagRest none Byte.equals (q :: (value ++ q :: s)) =
        (tagRest none q s).map fun r => (r.1, r.2 + (value.length + 1) + 1) := by
      have hnone : q ≠ Byte.nul ∧ q ≠ Byte.less ∧ q ≠ Byte.greater := by
        simp only [Byte.isQuote, Bool.or_eq_true, beq_iff_eq] at hq
        rcases hq with rfl | rfl <;> decide
      simp [tagRest, hnone, hq, tagRest_append_quoted hvalue, Option.map_map, Function.comp_def]
    rw [lastSolid_text_quoted rfl hq last, htext, tagRest_append_plain hlead, hlast, hopen]
    simp only [outside, List.cons_ne_nil, if_false, List.append_nil]
    split
    · simp only [Option.map_map, Function.comp_def, text, AttributeValue.text, List.length_append,
        List.length_singleton]
      congr 2
      funext r
      congr 1
      omega
    · rfl

theorem tagRest_append_attributes (has : ∀ a ∈ as, a.Readable) (last : UInt8) (s : Bytes) :
    tagRest none last (as.flatMap Spelling.text ++ s) =
      if ∀ a ∈ as, ∀ b ∈ a.outside, b ≠ Byte.nul ∧ b ≠ Byte.less then
        (tagRest none (lastSolid last (as.flatMap Spelling.text)) s).map
          fun r => (r.1, r.2 + (as.flatMap Spelling.text).length)
      else none := by
  induction as generalizing last with
  | nil => simp [lastSolid]
  | cons a as ih =>
    obtain ⟨ha, has⟩ := List.forall_mem_cons.1 has
    rw [List.flatMap_cons, List.append_assoc, ha.tagRest_append, ih has, List.length_append, lastSolid_append]
    simp only [List.forall_mem_cons]
    by_cases houtside : ∀ b ∈ a.outside, b ≠ Byte.nul ∧ b ≠ Byte.less
    · rw [if_pos houtside]
      simp only [and_iff_right houtside]
      split
      · simp only [Option.map_map, Function.comp_def, Nat.add_assoc, Nat.add_comm a.text.length]
      · rfl
    · rw [if_neg houtside, if_neg fun h => houtside h.1]

theorem isSuffixOf_greater {blanks : Bytes} (hblanks : ∀ b ∈ blanks, Byte.isBlank b = true) :
    (utf8 "/>").isSuffixOf (blanks ++ [Byte.greater]) = false := by
  rw [← Bool.not_eq_true, List.isSuffixOf_iff_suffix]
  intro hsuffix
  have hslash : [Byte.slash] <:+ blanks := (List.suffix_append_inj_of_length_eq rfl).1 hsuffix |>.1
  exact absurd (hblanks Byte.slash (hslash.subset List.mem_cons_self)) (by decide)

theorem isSuffixOf_slash_greater (blanks : Bytes) :
    (utf8 "/>").isSuffixOf (blanks ++ [Byte.slash, Byte.greater]) = true :=
  List.isSuffixOf_iff_suffix.2 (List.suffix_append _ _)

theorem IsEnding.tagRest_append (h : IsEnding tail) (last : UInt8) (s : Bytes) :
    tagRest none last (tail ++ s) =
      some (if (utf8 "/>").isSuffixOf tail || last = Byte.slash then .emptyTag else .startTag, tail.length) := by
  obtain ⟨blanks, hblanks, htail⟩ := h
  have hplain : ∀ b ∈ blanks, b ≠ Byte.nul ∧ b ≠ Byte.less := by
    intro b hb
    refine ⟨?_, ?_⟩ <;>
      · rintro rfl
        exact absurd (hblanks _ hb) (by decide)
  have hpass : ∀ rest, tagRest none last (blanks ++ rest) =
      (tagRest none last rest).map fun r => (r.1, r.2 + blanks.length) := by
    intro rest
    rw [tagRest_append_plain (fun b hb => plain_of_isBlank (hblanks b hb)), if_pos hplain,
      lastSolid_of_blank hblanks]
  rcases htail with rfl | rfl
  · have hend : tagRest none last (Byte.greater :: s) =
        some (if last = Byte.slash then .emptyTag else .startTag, 1) := rfl
    rw [List.append_assoc, hpass, List.singleton_append, hend, Option.map_some, List.length_append,
      List.length_singleton, Nat.add_comm, isSuffixOf_greater hblanks]
    simp
  · have hend : tagRest none last (Byte.slash :: Byte.greater :: s) = some (.emptyTag, 2) := rfl
    rw [List.append_assoc, hpass, List.cons_append, List.singleton_append, hend, Option.map_some,
      List.length_append, Nat.add_comm, isSuffixOf_slash_greater]
    rfl

theorem tagRest_written (hname : IsTagName name) (has : ∀ a ∈ as, a.Legible) (htail : IsEnding tail) :
    ∃ kind, tagRest none Byte.nul (name ++ as.flatMap Spelling.text ++ tail) =
      some (kind, (name ++ as.flatMap Spelling.text ++ tail).length) := by
  have hsolid : ∀ b ∈ name, b ≠ Byte.nul ∧ b ≠ Byte.less := by
    intro b hb
    refine ⟨?_, ?_⟩ <;>
      · rintro rfl
        exact absurd (hname.byte _ hb) (by decide)
  have hend := htail.tagRest_append (lastSolid (lastSolid Byte.nul name) (as.flatMap Spelling.text)) []
  rw [List.append_nil] at hend
  rw [List.append_assoc, tagRest_append_plain (fun b hb => plain_of_class rfl rfl rfl (hname.byte b hb)),
    if_pos hsolid, tagRest_append_attributes fun a ha => (has a ha).toReadable,
    if_pos fun a ha => (has a ha).outside, hend]
  exact ⟨_, by simp [Nat.add_comm]; rfl⟩

/-! ### Reading attributes back -/

theorem span_of_forall (hw : ∀ b ∈ w, p b = true) (hs : ∀ b, s.head? = some b → p b = false) :
    (w ++ s).takeWhile p = w ∧ (w ++ s).dropWhile p = s := by
  rw [List.takeWhile_append_of_pos hw, List.dropWhile_append_of_pos hw]
  cases s with
  | nil => simp
  | cons b s => simp [hs b rfl]

/-- What can stand after an attribute: nothing that belongs to an unquoted value, and no equals sign. -/
structure Boundary (s : Bytes) : Prop where
  bare : bareValueLength s = 0
  equals : (s.dropWhile Byte.isBlank).head? ≠ some Byte.equals

theorem bareValueLength_cons (hb : isBareByte b = true) (hslash : b = Byte.slash → s.head? ≠ some Byte.greater) :
    bareValueLength (b :: s) = bareValueLength s + 1 := by
  simp only [isBareByte, Bool.not_eq_true', Bool.or_eq_false_iff, beq_eq_false_iff_ne] at hb
  rw [bareValueLength, if_neg (by simp [hb]), if_neg (by simpa using hslash)]

theorem Boundary.head (h : Boundary s) (hb : s.head? = some b) :
    isAttributeNameByte b = false := by
  rw [← Bool.not_eq_true]
  intro hname
  obtain ⟨s', rfl⟩ := List.head?_eq_some_iff.1 hb
  simp only [isAttributeNameByte, Bool.not_eq_true', Bool.or_eq_false_iff, beq_eq_false_iff_ne] at hname
  have hbare : isBareByte b = true := by simp [isBareByte, hname]
  have hlength := h.bare
  rw [bareValueLength_cons hbare fun hslash => absurd hslash hname.1.1.1.2] at hlength
  exact Nat.succ_ne_zero _ hlength

theorem boundary_of_isEnding (h : IsEnding tail) : Boundary tail := by
  obtain ⟨blanks, hblanks, htail⟩ := h
  have hbare : ∀ rest : Bytes, bareValueLength rest = 0 → bareValueLength (blanks ++ rest) = 0 := by
    intro rest hrest
    cases blanks with
    | nil => exact hrest
    | cons b blanks => simp [bareValueLength, hblanks b List.mem_cons_self]
  have hequals : ∀ (c : UInt8) (rest : Bytes), Byte.isBlank c = false → c ≠ Byte.equals →
      ((blanks ++ c :: rest).dropWhile Byte.isBlank).head? ≠ some Byte.equals := by
    intro c rest hblank hc
    rw [(span_of_forall hblanks fun b hb => by cases Option.some.inj hb; exact hblank).2]
    exact fun h => hc (Option.some.inj h)
  rcases htail with rfl | rfl
  · exact ⟨hbare _ rfl, hequals _ _ rfl (by decide)⟩
  · exact ⟨hbare _ rfl, hequals _ _ rfl (by decide)⟩

theorem boundary_of_readable (ha : a.Readable) (s : Bytes) : Boundary (a.text ++ s) := by
  obtain ⟨b, space, hspace⟩ := List.exists_cons_of_ne_nil ha.space_ne_nil
  obtain ⟨c, name, hname⟩ := List.exists_cons_of_ne_nil ha.name_ne_nil
  have hb : Byte.isBlank b = true := ha.space b (by simp [hspace])
  have hc : isAttributeNameByte c = true := ha.name c (by simp [hname])
  simp only [isAttributeNameByte, Bool.not_eq_true', Bool.or_eq_false_iff, beq_eq_false_iff_ne] at hc
  have hdrop : (a.text ++ s).dropWhile Byte.isBlank = a.name ++ (a.value.text ++ s) := by
    rw [Spelling.text, List.append_assoc, List.append_assoc]
    refine (span_of_forall ha.space fun x hx => ?_).2
    rw [hname] at hx
    cases Option.some.inj hx
    exact hc.2
  refine ⟨?_, ?_⟩
  · simp [Spelling.text, hspace, bareValueLength, hb]
  · rw [hdrop, hname]
    exact fun h => hc.1.1.1.1.1 (Option.some.inj h)

theorem boundary_attributes (has : ∀ a ∈ as, a.Readable) (htail : IsEnding tail) :
    Boundary (as.flatMap Spelling.text ++ tail) := by
  cases as with
  | nil => exact boundary_of_isEnding htail
  | cons a as =>
    rw [List.flatMap_cons, List.append_assoc]
    exact boundary_of_readable (has a List.mem_cons_self) _

theorem bareValueLength_append (hvalue : ∀ b ∈ value, isBareByte b = true)
    (hslash : value.getLast? = some Byte.slash → s.head? ≠ some Byte.greater) :
    bareValueLength (value ++ s) = bareValueLength s + value.length := by
  induction value with
  | nil => rfl
  | cons b value ih =>
    obtain ⟨hb, hrest⟩ := List.forall_mem_cons.1 hvalue
    have hnext : b = Byte.slash → (value ++ s).head? ≠ some Byte.greater := by
      intro hb' hhead
      cases value with
      | nil => exact hslash (congrArg some hb') hhead
      | cons c value =>
        have hc : c = Byte.greater := Option.some.inj hhead
        exact absurd (hrest c List.mem_cons_self) (by simp [hc, isBareByte])
    have hlast : value.getLast? = some Byte.slash → s.head? ≠ some Byte.greater := by
      intro h
      refine hslash ?_
      rw [List.getLast?_cons, h]
      rfl
    rw [List.cons_append, bareValueLength_cons hb hnext, ih hrest hlast, List.length_cons, Nat.add_assoc]

theorem attributeValue?_equals {before after : Bytes} (hbefore : ∀ b ∈ before, Byte.isBlank b = true)
    (hafter : ∀ b ∈ after, Byte.isBlank b = true) (hc : Byte.isBlank c = false) (rest : Bytes) :
    attributeValue? (before ++ Byte.equals :: (after ++ c :: rest)) =
      if Byte.isQuote c then
        (Bytes.breakAt? c rest).map fun p => ⟨before ++ Byte.equals :: after, [c], p.1⟩
      else if bareValueLength (c :: rest) = 0 then none
      else some ⟨before ++ Byte.equals :: after, [], (c :: rest).take (bareValueLength (c :: rest))⟩ := by
  obtain ⟨htake, hdrop⟩ := span_of_forall (s := Byte.equals :: (after ++ c :: rest)) hbefore fun b hb => by
    cases Option.some.inj hb
    rfl
  obtain ⟨htake', hdrop'⟩ := span_of_forall (s := c :: rest) hafter fun b hb => by
    cases Option.some.inj hb
    exact hc
  simp [attributeValue?, htake, hdrop, htake', hdrop']

theorem attributeValue?_text (hv : v.Readable) (hs : Boundary s)
    (hslash : v.text.getLast? = some Byte.slash → s.head? ≠ some Byte.greater) :
    attributeValue? (v.text ++ s) = some v := by
  cases hv with
  | absent =>
    have hequals := hs.equals
    simp only [AttributeValue.text, List.append_nil, List.nil_append, attributeValue?]
    split
    · rfl
    · next c rest hrest =>
      rw [hrest] at hequals
      rw [if_pos fun h => hequals (congrArg some h)]
  | @quoted before after value q hbefore hafter hq hvalue =>
    have htext : AttributeValue.text ⟨before ++ Byte.equals :: after, [q], value⟩ ++ s =
        before ++ Byte.equals :: (after ++ q :: (value ++ q :: s)) := by
      simp [AttributeValue.text]
    rw [htext, attributeValue?_equals hbefore hafter (not_isBlank_of_isQuote hq), if_pos hq,
      Bytes.breakAt?_eq_some_iff.2 ⟨rfl, hvalue⟩]
    rfl
  | @bare before after value hbefore hafter hne hvalue =>
    obtain ⟨c, rest, rfl⟩ := List.exists_cons_of_ne_nil hne
    have htext : AttributeValue.text ⟨before ++ Byte.equals :: after, [], c :: rest⟩ ++ s =
        before ++ Byte.equals :: (after ++ c :: (rest ++ s)) := by
      simp [AttributeValue.text]
    have hlength : bareValueLength (c :: (rest ++ s)) = (c :: rest).length := by
      have hlast : (c :: rest).getLast? = some Byte.slash → s.head? ≠ some Byte.greater := by
        intro h
        refine hslash ?_
        rw [AttributeValue.text, List.append_nil, List.append_nil, List.getLast?_append_of_ne_nil _ hne, h]
      rw [← List.cons_append, bareValueLength_append hvalue hlast, hs.bare, Nat.zero_add]
    have hc := hvalue c List.mem_cons_self
    simp only [isBareByte, Bool.not_eq_true', Bool.or_eq_false_iff] at hc
    rw [htext, attributeValue?_equals hbefore hafter hc.1.1, hlength]
    simp [hc.2]

namespace Spelling

/-- The attributes that are written one after the other from an offset on. -/
def placeAll (tok : Token) : Nat → List Spelling → List RawAttribute
  | _, [] => []
  | i, a :: as => a.place tok i :: placeAll tok (i + a.text.length) as

theorem map_spelling_placeAll (tok : Token) (i : Nat) (as : List Spelling) :
    (placeAll tok i as).map RawAttribute.spelling = as := by
  induction as generalizing i with
  | nil => rfl
  | cons a as ih => exact congrArg (a :: ·) (ih _)

end Spelling

theorem not_isAttributeNameByte_of_value (hv : v.Readable) (hs : Boundary s) (hb : (v.text ++ s).head? = some b) :
    isAttributeNameByte b = false := by
  have hequals : ∀ {before : Bytes} (rest : Bytes), (∀ b ∈ before, Byte.isBlank b = true) →
      (before ++ Byte.equals :: rest).head? = some b → isAttributeNameByte b = false := by
    intro before rest hbefore hhead
    cases before with
    | nil =>
      cases Option.some.inj hhead
      rfl
    | cons c before =>
      cases Option.some.inj hhead
      simp [isAttributeNameByte, hbefore b List.mem_cons_self]
  cases hv with
  | absent => exact hs.head hb
  | @quoted before after value q hbefore _ _ _ =>
    refine hequals (after ++ [q] ++ value ++ [q] ++ s) hbefore ?_
    rw [← hb]
    simp [AttributeValue.text]
  | @bare before after value hbefore _ _ _ =>
    refine hequals (after ++ value ++ s) hbefore ?_
    rw [← hb]
    simp [AttributeValue.text]

theorem readAttributes?_append (hkind : tok.kind ≠ .endTag) (ha : a.Readable) (hs : Boundary s)
    (hslash : a.text.getLast? = some Byte.slash → s.head? ≠ some Byte.greater) (hi : tok.value.drop i = a.text ++ s) :
    readAttributes? tok i (a.text ++ s) =
      (readAttributes? tok (i + a.text.length) s).map fun r => (a.place tok i :: r.1, r.2) := by
  have htext : a.text ++ s = a.space ++ (a.name ++ (a.value.text ++ s)) := by simp [Spelling.text]
  have hlength : i + a.text.length = i + a.space.length + a.name.length + a.value.size := by
    simp [Spelling.text, Nat.add_assoc]
  have hc : ∀ b, (a.name ++ (a.value.text ++ s)).head? = some b → isAttributeNameByte b = true := by
    intro b hb
    obtain ⟨c, name, hname⟩ := List.exists_cons_of_ne_nil ha.name_ne_nil
    rw [hname] at hb
    cases Option.some.inj hb
    exact ha.name b (by simp [hname])
  have hspace := span_of_forall ha.space fun b hb => by
    have hb := hc b hb
    simp only [isAttributeNameByte, Bool.not_eq_true', Bool.or_eq_false_iff] at hb
    exact hb.2
  have hname := span_of_forall ha.name fun b hb => not_isAttributeNameByte_of_value ha.value hs hb
  have hend : ¬ (a.name ++ (a.value.text ++ s) = utf8 ">" ∨ a.name ++ (a.value.text ++ s) = utf8 "/>") := by
    rintro (h | h) <;> exact absurd (hc _ (congrArg List.head? h)) (by decide)
  have hvalue : attributeValue? (a.value.text ++ s) = some a.value := by
    refine attributeValue?_text ha.value hs fun hlast => hslash ?_
    exact List.mem_getLast?_append_of_mem_getLast? hlast
  rw [htext] at hi ⊢
  have hplace := slice_eq_place hi
  rw [hlength, readAttributes?]
  simp [hspace.1, hspace.2, hname.1, hname.2, hvalue, hend, ha.space_ne_nil, ha.name_ne_nil, hkind, hplace]

theorem readAttributes?_written (hkind : tok.kind ≠ .endTag) (htail : IsEnding tail) (has : ∀ a ∈ as, a.Readable)
    (hslash : (as.flatMap Spelling.text).getLast? = some Byte.slash → tail.head? ≠ some Byte.greater)
    (hi : tok.value.drop i = as.flatMap Spelling.text ++ tail) :
    readAttributes? tok i (as.flatMap Spelling.text ++ tail) = some (Spelling.placeAll tok i as, tail) := by
  induction as generalizing i with
  | nil =>
    obtain ⟨blanks, hblanks, htail⟩ := htail
    have hrest : tail.dropWhile Byte.isBlank = utf8 ">" ∨ tail.dropWhile Byte.isBlank = utf8 "/>" := by
      refine htail.imp ?_ ?_ <;>
        · rintro rfl
          refine (span_of_forall hblanks fun b hb => ?_).2
          cases Option.some.inj hb
          rfl
    rw [List.flatMap_nil, List.nil_append, readAttributes?]
    simp [hrest, Spelling.placeAll]
  | cons a as ih =>
    obtain ⟨ha, has⟩ := List.forall_mem_cons.1 has
    rw [List.flatMap_cons, List.append_assoc] at hi ⊢
    have hboundary := boundary_attributes has htail
    have hlast : a.text.getLast? = some Byte.slash →
        (as.flatMap Spelling.text ++ tail).head? ≠ some Byte.greater := by
      intro hlast hhead
      cases as with
      | nil => exact hslash (by simpa using hlast) hhead
      | cons a' as =>
        obtain ⟨b, space, hspace⟩ := List.exists_cons_of_ne_nil (has a' List.mem_cons_self).space_ne_nil
        have hb : Byte.isBlank b = true := (has a' List.mem_cons_self).space b (by simp [hspace])
        simp only [List.flatMap_cons, Spelling.text, hspace, List.cons_append, List.head?_cons,
          Option.some.injEq] at hhead
        exact (plain_of_isBlank hb).1 hhead
    have hslash' : (as.flatMap Spelling.text).getLast? = some Byte.slash → tail.head? ≠ some Byte.greater :=
      fun h => hslash (List.mem_getLast?_append_of_mem_getLast? h)
    rw [readAttributes?_append hkind ha hboundary hlast hi, ih has hslash' (Token.drop_value_add hi)]
    rfl

theorem not_isNameByte (h : isAttributeNameByte b = false) : isNameByte b = false := by
  simp only [isAttributeNameByte, Bool.not_eq_false', Bool.or_eq_true, beq_iff_eq, Byte.isQuote, Byte.isBlank] at h
  rcases h with ((((rfl | rfl) | rfl) | rfl | rfl) | rfl) | (((rfl | rfl) | rfl) | rfl) | rfl <;> rfl

theorem markupRest_of_isNameStart (hc : isNameStart c = true) (s : Bytes) :
    markupRest (c :: s) = tagRest none Byte.nul (c :: s) := by
  have hnot : ∀ w : Bytes, w.head?.map isNameStart = some false → w.isPrefixOf (c :: s) = false := by
    intro w hw
    obtain ⟨b, hhead, hb⟩ := Option.map_eq_some_iff.1 hw
    obtain ⟨w', rfl⟩ := List.head?_eq_some_iff.1 hhead
    have hbc : b ≠ c := by
      rintro rfl
      simp [hb] at hc
    simp [List.isPrefixOf, hbc]
  simp [markupRest, hnot (utf8 "!--") rfl, hnot (utf8 "![CDATA[") rfl, hnot (utf8 "!") rfl, hnot (utf8 "?") rfl,
    hnot (utf8 "/") rfl, hc]

/-- A start tag of legible attributes is read as one tag, with each part where it is written. -/
theorem tokenize_placed (hname : IsTagName name) (has : ∀ a ∈ as, a.Legible) (htail : IsEnding tail)
    (hslash : (as.flatMap Spelling.text).getLast? = some Byte.slash → tail.head? ≠ some Byte.greater)
    (filename : Bytes) :
    let source := utf8 "<" ++ name ++ as.flatMap Spelling.text ++ tail
    ∃ kind, (kind = .startTag ∨ kind = .emptyTag) ∧
      let tok : Token := ⟨kind, source, 0, source, filename⟩
      tokenize source filename = [tok] ∧
      Tag.ofToken? tok =
        some ⟨tok, utf8 "<", tok.piece 1 name, Spelling.placeAll tok (1 + name.length) as, tail⟩ := by
  intro source
  obtain ⟨kind, hrest⟩ := tagRest_written hname has htail
  obtain ⟨c, name', hcons, hc⟩ := hname.start
  have hsource : source = Byte.less :: (name ++ as.flatMap Spelling.text ++ tail) := rfl
  have hkind := kind_of_tagRest hrest
  refine ⟨kind, hkind, ?_⟩
  intro tok
  have hlexeme : lexeme Byte.less (name ++ as.flatMap Spelling.text ++ tail) =
      (kind, (name ++ as.flatMap Spelling.text ++ tail).length) := by
    have hmarkup : markupRest (name ++ as.flatMap Spelling.text ++ tail) =
        tagRest none Byte.nul (name ++ as.flatMap Spelling.text ++ tail) := by
      rw [hcons]
      exact markupRest_of_isNameStart hc _
    rw [lexeme, if_pos rfl, hmarkup, hrest, Option.getD_some]
  have hdrop : tok.value.drop 1 = name ++ (as.flatMap Spelling.text ++ tail) := by
    rw [← List.append_assoc]
    rfl
  have hspan : (name ++ (as.flatMap Spelling.text ++ tail)).takeWhile isNameByte = name ∧
      (name ++ (as.flatMap Spelling.text ++ tail)).dropWhile isNameByte = as.flatMap Spelling.text ++ tail := by
    refine span_of_forall hname.byte fun b hb => not_isNameByte ?_
    exact (boundary_attributes (fun a ha => (has a ha).toReadable) htail).head hb
  have hnotEnd : tok.kind ≠ .endTag := by
    rcases hkind with h | h <;> simp [tok, h]
  have hread := readAttributes?_written hnotEnd htail (fun a ha => (has a ha).toReadable) hslash
    (Token.drop_value_add hdrop)
  refine ⟨?_, Option.bind_eq_some_iff.2 ⟨utf8 "<", ?_, ?_⟩⟩
  · rw [tokenize, hsource, tokensFrom, hlexeme, List.take_length, List.drop_length, tokensFrom]
    rfl
  · rcases hkind with h | h <;> simp [tok, h]
  · have hlength : (utf8 "<").length = 1 := rfl
    simp only [hlength, hdrop, hspan, hread, Token.slice_eq_piece hdrop]
    simp [hcons]

theorem tokenize_written (hname : IsTagName name) (has : ∀ a ∈ as, a.Legible) (htail : IsEnding tail)
    (hslash : (as.flatMap Spelling.text).getLast? = some Byte.slash → tail.head? ≠ some Byte.greater)
    (filename : Bytes) :
    ∃ tok tag, tokenize (utf8 "<" ++ name ++ as.flatMap Spelling.text ++ tail) filename = [tok] ∧
      (tok.kind = .startTag ∨ tok.kind = .emptyTag) ∧ Tag.ofToken? tok = some tag ∧ tag.name.value = name ∧
      tag.attributes.map RawAttribute.spelling = as ∧ tag.ending = tail := by
  obtain ⟨kind, hkind, htokens, htag⟩ := tokenize_placed hname has htail hslash filename
  exact ⟨_, _, htokens, hkind, htag, rfl, Spelling.map_spelling_placeAll _ _ _, rfl⟩

/-! ### Tags of a source -/

theorem tagRest_of_lexeme (h : (lexeme c s).1.opening? = some (utf8 "<")) :
    c = Byte.less ∧ (∃ b s', s = b :: s' ∧ isNameStart b = true) ∧
      tagRest none Byte.nul s = some (lexeme c s) := by
  unfold lexeme at h ⊢
  split at h
  · next hc =>
    rw [if_pos hc]
    cases hm : markupRest s with
    | none => simp [hm, TokenKind.opening?] at h
    | some r =>
      rw [hm, Option.getD_some] at h
      refine ⟨hc, ?_⟩
      rcases cases_of_markupRest hm with hother | ⟨hend, _⟩ | htag
      · simp [opening?_eq_none hother] at h
      · rw [hend] at h
        exact absurd h (by decide)
      · exact htag
  · simp [TokenKind.opening?] at h

theorem legible_of_tagRest (hname : ∀ b ∈ name, isNameByte b = true) (has : ∀ a ∈ as, a.Readable) {last : UInt8}
    (h : tagRest none last (name ++ (as.flatMap Spelling.text ++ s)) = some r) :
    ∀ a ∈ as, a.Legible := by
  rw [tagRest_append_plain fun b hb => plain_of_class rfl rfl rfl (hname b hb)] at h
  split at h
  · obtain ⟨r', hr', _⟩ := Option.map_eq_some_iff.1 h
    rw [tagRest_append_attributes has] at hr'
    split at hr'
    · next houtside => exact fun a ha => ⟨has a ha, houtside a ha⟩
    · cases hr'
  · cases h

theorem readable_of_mem_tokenize (hmem : tok ∈ tokenize source filename) (hkind : tok.kind ≠ .endTag)
    (htag : Tag.ofToken? tok = some tag) :
    tag.opening = utf8 "<" ∧ IsTagName tag.name.value ∧ IsEnding tag.ending ∧
      (∀ a ∈ tag.attributes, a.spelling.Readable) ∧
      ∃ n after, tagRest none Byte.nul (tag.name.value ++
        ((tag.attributes.map RawAttribute.spelling).flatMap Spelling.text ++ (tag.ending ++ after))) =
          some (tok.kind, n) := by
  obtain ⟨c, rest, hlexeme, hvalue⟩ := exists_lexeme_of_mem_tokensFrom hmem
  obtain ⟨opening, hopening, hread⟩ := Option.bind_eq_some_iff.1 htag
  have hless : opening = utf8 "<" ∧ tok.kind.opening? = some (utf8 "<") := by
    revert hopening hkind
    cases tok.kind <;> simp [TokenKind.opening?, eq_comm]
  obtain ⟨rfl, hless⟩ := hless
  obtain ⟨_, ⟨b, rest', hrest, hb⟩, hextent⟩ := tagRest_of_lexeme (hlexeme ▸ hless)
  have hdrop : tok.value.drop (utf8 "<").length = rest.take (lexeme c rest).2 := by
    rw [hvalue]
    rfl
  simp only [hdrop] at hread
  split at hread
  · cases hread
  · next hne =>
    obtain ⟨⟨attributes, ending⟩, hattributes, rfl⟩ := Option.map_eq_some_iff.1 hread
    have hsplit := List.takeWhile_append_dropWhile (p := isNameByte) (l := rest.take (lexeme c rest).2)
    have hname := hdrop.trans hsplit.symm
    have hafter := Token.drop_value_add hname
    obtain ⟨htext, hreadable, hending⟩ := readable_of_readAttributes? hattributes hafter
    refine ⟨rfl, ?_⟩
    simp only [Token.value_slice hname]
    refine ⟨⟨?_, fun b hb => List.mem_takeWhile_imp hb⟩, hending, hreadable, (lexeme c rest).2,
      rest.drop (lexeme c rest).2, ?_⟩
    · obtain ⟨b', name, hcons⟩ := List.exists_cons_of_ne_nil (mt List.isEmpty_iff.2 hne)
      have hb' : b' = b := by
        have hhead := congrArg List.head? (List.take_append_drop (lexeme c rest).2 rest)
        rw [← hsplit, hcons, hrest] at hhead
        exact Option.some.inj hhead
      exact ⟨b', name, hcons, hb' ▸ hb⟩
    · have htexts : (attributes.map RawAttribute.spelling).flatMap Spelling.text =
          attributes.flatMap RawAttribute.text := by simp [List.flatMap_map]
      rw [htexts, ← List.append_assoc (attributes.flatMap _), htext, ← List.append_assoc, hsplit,
        List.take_append_drop, hextent, hlexeme]

theorem legible_of_mem_tokenize (hmem : tok ∈ tokenize source filename) (hkind : tok.kind ≠ .endTag)
    (htag : Tag.ofToken? tok = some tag) :
    tag.opening = utf8 "<" ∧ IsTagName tag.name.value ∧ IsEnding tag.ending ∧
      ∀ a ∈ tag.attributes, a.spelling.Legible := by
  obtain ⟨hopening, hname, hending, hreadable, n, after, hextent⟩ := readable_of_mem_tokenize hmem hkind htag
  have hlegible := legible_of_tagRest hname.byte (by simpa using hreadable) hextent
  exact ⟨hopening, hname, hending, by simpa using hlegible⟩

theorem legible_of_mem_elementHeads {tree : List Node} (h : parse source filename = .ok tree) {head : ElementHead}
    (hhead : head ∈ elementHeads tree) :
    head.start.opening = utf8 "<" ∧ IsTagName head.name ∧ IsEnding head.start.ending ∧
      ∀ a ∈ head.attributes, a.raw.spelling.Legible := by
  obtain ⟨tok, hmem, hkind, tag, bindings, htag, rfl⟩ := ofTag_of_mem_elementHeads h hhead
  obtain ⟨hopening, hname, hending, hattributes⟩ := legible_of_mem_tokenize hmem hkind htag
  refine ⟨hopening, hname, hending, fun a ha => ?_⟩
  obtain ⟨raw, hraw, rfl⟩ := List.mem_map.1 ha
  exact hattributes raw hraw

end PageTemplate.Markup
