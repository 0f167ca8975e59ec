import PageTemplate.Proofs.Markup.SelfClosing

/-!
Start tags in their plain form: a name, attributes that have no value or a value between quotes, and an ending. However
the parts are spaced and whatever stands between the quotes, such a tag is one token, which is read as these parts, each
at its offset. The main statement is `plain_tag_read_back`.
-/

namespace PageTemplate.Markup

variable {b : UInt8} {as : List Spelling}

/-! ### The plain form -/

/-- No value, or an equals sign, perhaps with blanks around it, and a value between quotes. -/
inductive AttributeValue.Plain : AttributeValue → Prop where
  | absent : Plain ⟨[], [], []⟩
  | quoted {before after value : Bytes} {q : UInt8} (hbefore : ∀ b ∈ before, Byte.isBlank b = true)
      (hafter : ∀ b ∈ after, Byte.isBlank b = true) (hq : Byte.isQuote q = true) (hvalue : q ∉ value) :
      Plain ⟨before ++ Byte.equals :: after, [q], value⟩

/-- An attribute in the plain form, with the blanks before it. -/
structure Spelling.Plain (a : Spelling) : Prop where
  space_ne_nil : a.space ≠ []
  space : ∀ b ∈ a.space, Byte.isBlank b = true
  name : IsAttributeName a.name
  value : a.value.Plain

theorem not_stop_of_isBlank (h : Byte.isBlank b = true) : b ≠ Byte.nul ∧ b ≠ Byte.less :=
  ⟨ne_of_class h rfl, ne_of_class h rfl⟩

namespace AttributeValue.Plain

variable {v : AttributeValue} (hv : v.Plain)
include hv

theorem readable : v.Readable := by
  cases hv with
  | absent => exact .absent
  | quoted hbefore hafter hq hvalue => exact .quoted hbefore hafter hq hvalue

theorem value_eq_nil (hquote : v.quote = []) : v.value = [] := by
  cases hv with
  | absent => rfl
  | quoted => cases hquote

theorem not_stop_eq : ∀ b ∈ v.eq, b ≠ Byte.nul ∧ b ≠ Byte.less := by
  cases hv with
  | absent => simp
  | quoted hbefore hafter =>
    refine List.forall_mem_append.2 ⟨fun b hb => not_stop_of_isBlank (hbefore b hb), ?_⟩
    exact List.forall_mem_cons.2 ⟨by decide, fun b hb => not_stop_of_isBlank (hafter b hb)⟩

end AttributeValue.Plain

namespace Spelling.Plain

variable {a : Spelling} (ha : a.Plain)
include ha

theorem legible : a.Legible where
  space_ne_nil := ha.space_ne_nil
  space := ha.space
  name_ne_nil := ha.name.ne_nil
  name := ha.name.byte
  value := ha.value.readable
  outside := by
    have hbare : ∀ b ∈ (if a.value.quote = [] then a.value.value else []), b ≠ Byte.nul ∧ b ≠ Byte.less := by
      split
      · next hquote => simp [ha.value.value_eq_nil hquote]
      · simp
    have hname : ∀ b ∈ a.name, b ≠ Byte.nul ∧ b ≠ Byte.less := fun b hb =>
      ⟨fun h => ha.name.nul (h ▸ hb), ne_of_class (ha.name.byte b hb) rfl⟩
    simp only [Spelling.outside, List.forall_mem_append]
    exact ⟨⟨⟨fun b hb => not_stop_of_isBlank (ha.space b hb), hname⟩, ha.value.not_stop_eq⟩, hbare⟩

theorem not_bareSlash : ¬ (a.value.quote = [] ∧ a.value.value.getLast? = some Byte.slash) := by
  rintro ⟨hquote, hlast⟩
  simp [ha.value.value_eq_nil hquote] at hlast

end Spelling.Plain

theorem lastSolid_of_getLast? {w : Bytes} (hb : Byte.isBlank b = false) (h : w.getLast? = some b)
    (last : UInt8) : lastSolid last w = b := by
  obtain ⟨front, rfl⟩ := List.getLast?_eq_some_iff.1 h
  rw [lastSolid_append]
  exact if_neg (by simp [hb])

theorem getLast?_plain_ne_slash (has : ∀ a ∈ as, a.Plain) :
    (as.flatMap Spelling.text).getLast? ≠ some Byte.slash := by
  intro hlast
  have hsolid := lastSolid_of_getLast? rfl hlast Byte.nul
  rcases List.eq_nil_or_concat as with rfl | ⟨front, a, rfl⟩
  · cases hlast
  · have ha : a.Plain := has a (by simp)
    rw [List.concat_eq_append, List.flatMap_append, List.flatMap_singleton, lastSolid_append] at hsolid
    exact ha.not_bareSlash ((ha.legible.lastSolid_text_eq_slash_iff _).1 hsolid)

theorem Tag.endsInBareSlash_eq_false {tag : Tag} (h : ∀ a ∈ tag.attributes, a.spelling.Plain) :
    tag.endsInBareSlash = false := by
  rw [Tag.endsInBareSlash, ← Bool.not_eq_true, Option.any_eq_true]
  rintro ⟨a, ha, hslash⟩
  rw [Bool.and_eq_true, List.isEmpty_iff, decide_eq_true_eq] at hslash
  exact (h a (List.mem_of_getLast? ha)).not_bareSlash hslash

theorem Spelling.forall_placeAll {P : Spelling → Prop} (has : ∀ a ∈ as, P a) (tok : Token)
    (i : Nat) : ∀ a ∈ placeAll tok i as, P a.spelling := by
  intro a ha
  refine has a.spelling ?_
  rw [← map_spelling_placeAll tok i as]
  exact List.mem_map_of_mem ha

/-- A tag in the plain form is one token, that of an empty tag if it is closed with a slash, and reading the token gives
the name, the attributes and the ending that were written, where they stand in the text. -/
theorem plain_tag_read_back {name blanks : Bytes} {as : List Spelling} (hname : IsTagName name)
    (has : ∀ a ∈ as, a.Plain) (hblanks : ∀ b ∈ blanks, Byte.isBlank b = true) (closed : Bool) (filename : Bytes) :
    let tail := blanks ++ if closed then utf8 "/>" else utf8 ">"
    let source := utf8 "<" ++ name ++ as.flatMap Spelling.text ++ tail
    let tok : Token := ⟨if closed then .emptyTag else .startTag, source, 0, source, filename⟩
    tokenize source filename = [tok] ∧
      Tag.ofToken? tok =
        some ⟨tok, utf8 "<", tok.piece 1 name, Spelling.placeAll tok (1 + name.length) as, tail⟩ := by
  intro tail source tok
  have htail : IsEnding tail ∧ (utf8 "/>").isSuffixOf tail = closed := by
    cases closed with
    | false => exact ⟨⟨blanks, hblanks, .inl rfl⟩, isSuffixOf_greater hblanks⟩
    | true => exact ⟨⟨blanks, hblanks, .inr rfl⟩, isSuffixOf_slash_greater blanks⟩
  obtain ⟨kind, hkind, htokens, htag⟩ := tokenize_placed hname (fun a ha => (has a ha).legible) htail.1
    (fun h => absurd h (getLast?_plain_ne_slash has)) filename
  -- Which kind of token it is can be told from the tag that is read off it.
  have hempty := emptyTag_iff_of_mem_tokenize (htokens ▸ List.mem_singleton_self _)
    (by rcases hkind with h | h <;> simp [h]) htag
  rw [Tag.isEmpty, htail.2, Tag.endsInBareSlash_eq_false (Spelling.forall_placeAll has _ _)] at hempty
  have hclosed : kind = if closed then .emptyTag else .startTag := by
    cases closed with
    | false => exact hkind.resolve_right fun h => by simpa using hempty.1 h
    | true => exact hempty.2 (.inl rfl)
  subst hclosed
  exact ⟨htokens, htag⟩

/-- Neither what ends a tag elsewhere nor a zero byte ends it between quotes. -/
theorem plain_tag_read_back_hostile_values :
    let source := utf8 "<a:b\t x = '<\">/=\x00' off\ny=\"it's\" />"
    let tok : Token := ⟨.emptyTag, source, 0, source, []⟩
    tokenize source [] = [tok] ∧ Tag.ofToken? tok = some ⟨tok, utf8 "<", tok.piece 1 (utf8 "a:b"),
      [⟨utf8 "\t ", tok.piece 6 (utf8 "x"), utf8 " = ", utf8 "'", tok.piece 11 (utf8 "<\">/=\x00")⟩,
        ⟨utf8 " ", tok.piece 19 (utf8 "off"), [], [], tok.piece 22 []⟩,
        ⟨utf8 "\n", tok.piece 23 (utf8 "y"), utf8 "=", utf8 "\"", tok.piece 26 (utf8 "it's")⟩], utf8 " />"⟩ := by
  have hname : IsTagName (utf8 "a:b") := ⟨⟨_, _, rfl, rfl⟩, List.all_eq_true.1 rfl⟩
  have hfirst : Spelling.Plain ⟨utf8 "\t ", utf8 "x", ⟨utf8 " = ", utf8 "'", utf8 "<\">/=\x00"⟩⟩ :=
    ⟨by decide, List.all_eq_true.1 rfl, ⟨by decide, List.all_eq_true.1 rfl, by decide⟩,
      @AttributeValue.Plain.quoted (utf8 " ") (utf8 " ") _ _ (List.all_eq_true.1 rfl) (List.all_eq_true.1 rfl) rfl
        (by decide)⟩
  have hsecond : Spelling.Plain ⟨utf8 " ", utf8 "off", ⟨[], [], []⟩⟩ :=
    ⟨by decide, List.all_eq_true.1 rfl, ⟨by decide, List.all_eq_true.1 rfl, by decide⟩, .absent⟩
  have hthird : Spelling.Plain ⟨utf8 "\n", utf8 "y", ⟨utf8 "=", utf8 "\"", utf8 "it's"⟩⟩ :=
    ⟨by decide, List.all_eq_true.1 rfl, ⟨by decide, List.all_eq_true.1 rfl, by decide⟩,
      .quoted (List.forall_mem_nil _) (List.forall_mem_nil _) rfl (by decide)⟩
  have has := List.forall_mem_cons.2 ⟨hfirst, List.forall_mem_cons.2 ⟨hsecond, List.forall_mem_singleton.2 hthird⟩⟩
  exact plain_tag_read_back hname has (List.all_eq_true.1 (rfl : (utf8 " ").all Byte.isBlank = true)) true []

end PageTemplate.Markup
