import PageTemplate.Proofs.Markup.Matching
import PageTemplate.Proofs.Markup.Spelling

/-!
Tags that close themselves. Whether a tag is empty is decided by the scan that finds the token, from the last byte
before the `>` that is not blank, and again by the reading of the tag. The two differ where the last attribute has a
value without quotes that ends in a slash.
-/

namespace PageTemplate.Markup

variable {w : Bytes} {tag : Tag}

/-- The last attribute is written without quotes, and its value ends in a slash. -/
def Tag.endsInBareSlash (t : Tag) : Bool :=
  t.attributes.getLast?.any fun a => a.quote.isEmpty && a.value.value.getLast? = some Byte.slash

theorem lastSolid_of_solid (hw : ∀ b ∈ w, Byte.isBlank b = false) (last : UInt8) :
    lastSolid last w = w.getLast?.getD last := by
  induction w generalizing last with
  | nil => rfl
  | cons b w ih =>
    obtain ⟨hb, hw⟩ := List.forall_mem_cons.1 hw
    rw [lastSolid, List.foldl_cons, if_neg (by simp [hb]), List.getLast?_cons, Option.getD_some]
    exact ih hw b

theorem lastSolid_ne_slash (hne : w ≠ []) (hw : ∀ b ∈ w, Byte.isBlank b = false ∧ b ≠ Byte.slash)
    (last : UInt8) : lastSolid last w ≠ Byte.slash := by
  rw [lastSolid_of_solid fun b hb => (hw b hb).1, List.getLast?_eq_some_getLast hne, Option.getD_some]
  exact (hw _ (List.getLast_mem hne)).2

theorem isAttributeNameByte_spec {b : UInt8} (h : isAttributeNameByte b = true) :
    Byte.isBlank b = false ∧ b ≠ Byte.slash := by
  simp only [isAttributeNameByte, Bool.not_eq_true', Bool.or_eq_false_iff, beq_eq_false_iff_ne] at h
  exact ⟨h.2, h.1.1.1.2⟩

/-- An attribute leaves a slash as the last byte only if it ends in a value without quotes that does. -/
theorem Spelling.Readable.lastSolid_text_eq_slash_iff {a : Spelling} (ha : a.Readable) (last : UInt8) :
    lastSolid last a.text = Byte.slash ↔ a.value.quote = [] ∧ a.value.value.getLast? = some Byte.slash := by
  obtain ⟨space, name, v⟩ := a
  have hvalue := ha.value
  cases hvalue with
  | absent =>
    have hname := lastSolid_ne_slash ha.name_ne_nil (fun b hb => isAttributeNameByte_spec (ha.name b hb))
      (lastSolid last space)
    simpa [text, AttributeValue.text] using hname
  | @quoted before after value q _ _ hq _ =>
    rw [lastSolid_text_quoted rfl hq last]
    simpa using ne_of_class hq (rfl : Byte.isQuote Byte.slash = false)
  | @bare before after value _ _ hne hbare =>
    have hsolid : ∀ b ∈ value, Byte.isBlank b = false := by
      intro b hb
      have hb := hbare b hb
      simp only [isBareByte, Bool.not_eq_true', Bool.or_eq_false_iff] at hb
      exact hb.1.1
    rw [text, AttributeValue.text, List.append_nil, List.append_nil, ← List.append_assoc, lastSolid_append,
      lastSolid_of_solid hsolid, List.getLast?_eq_some_getLast hne]
    simp

/-- The name and the attributes of a tag leave a slash as the last byte only if the last attribute does. -/
theorem Tag.lastSolid_eq_slash_iff (hname : IsTagName tag.name.value)
    (hattributes : ∀ a ∈ tag.attributes, a.spelling.Readable) (last : UInt8) :
    lastSolid last (tag.name.value ++ (tag.attributes.map RawAttribute.spelling).flatMap Spelling.text) =
      Byte.slash ↔ tag.endsInBareSlash = true := by
  rw [Tag.endsInBareSlash]
  rcases List.eq_nil_or_concat tag.attributes with hnil | ⟨front, a, hlast⟩
  · obtain ⟨c, s, hcons, _⟩ := hname.start
    have hne : tag.name.value ≠ [] := by simp [hcons]
    have hsolid : ∀ b ∈ tag.name.value, Byte.isBlank b = false ∧ b ≠ Byte.slash := by
      intro b hb
      refine isAttributeNameByte_spec ?_
      rw [← Bool.not_eq_false]
      intro h
      simpa [not_isNameByte h] using hname.byte b hb
    simpa [hnil] using lastSolid_ne_slash hne hsolid last
  · have ha : a.spelling.Readable := hattributes a (by simp [hlast])
    rw [hlast]
    simp only [List.concat_eq_append, List.map_append, List.map_cons, List.map_nil, List.flatMap_append,
      List.flatMap_singleton, ← List.append_assoc, lastSolid_append, ha.lastSolid_text_eq_slash_iff]
    simp [RawAttribute.spelling]

/-- A tag token is empty if the tag ends in `/>`, or if its last attribute has an unquoted value that ends in a slash.
-/
theorem emptyTag_iff_of_mem_tokenize {source filename : Bytes} {tok : Token}
    (hmem : tok ∈ tokenize source filename) (hkind : tok.kind ≠ .endTag) (htag : Tag.ofToken? tok = some tag) :
    tok.kind = .emptyTag ↔ tag.isEmpty = true ∨ tag.endsInBareSlash = true := by
  obtain ⟨_, hname, hending, hreadable, n, after, hextent⟩ := readable_of_mem_tokenize hmem hkind htag
  rw [tagRest_append_plain fun b hb => plain_of_class rfl rfl rfl (hname.byte b hb)] at hextent
  split at hextent
  · rw [tagRest_append_attributes (by simpa using hreadable)] at hextent
    split at hextent
    · rw [hending.tagRest_append, ← lastSolid_append] at hextent
      simp only [Option.map_some, Option.some.injEq, Prod.mk.injEq] at hextent
      rw [← hextent.1, ← Tag.lastSolid_eq_slash_iff hname hreadable Byte.nul, Tag.isEmpty]
      split
      · next h => simpa using h
      · next h => simpa using h
    · cases hextent
  · cases hextent

/-- A start tag is kept off the open elements if it ends in `/>`, and also if its last attribute has an unquoted value
that ends in a slash: the token is then that of an empty tag, though the element does not close itself. -/
theorem kept_off_open_elements {source filename : Bytes} {tok : Token} {tag : Tag}
    (hmem : tok ∈ tokenize source filename) (hkind : tok.kind = .startTag ∨ tok.kind = .emptyTag)
    (htag : Tag.ofToken? tok = some tag) :
    (tok.kind = .emptyTag ↔ tag.isEmpty = true ∨ tag.endsInBareSlash = true) ∧
    ∀ st : TreeState, ∃ head : ElementHead, head.start = tag ∧
      if head.isSelfClosing || tag.endsInBareSlash then
        st.step tok = .ok { st with nodes := .element head [] none :: st.nodes }
      else ∃ inner, st.step tok = .ok ⟨⟨head, st.nodes, st.bindings⟩ :: st.opened, [], inner⟩ := by
  have hnotEnd : tok.kind ≠ .endTag := by
    rcases hkind with h | h <;> simp [h]
  have hempty := emptyTag_iff_of_mem_tokenize hmem hnotEnd htag
  refine ⟨hempty, fun st => ⟨.ofTag (st.bindings.declare tag.attributes) tag, rfl, ?_⟩⟩
  have hself : (ElementHead.ofTag (st.bindings.declare tag.attributes) tag).isSelfClosing = tag.isEmpty := rfl
  rw [← Bool.or_eq_true] at hempty
  rw [hself]
  rcases hkind with h | h
  · have hslash : ¬ (tag.isEmpty || tag.endsInBareSlash) = true := by
      rw [← hempty, h]
      decide
    rw [if_neg hslash]
    exact ⟨st.bindings.declare tag.attributes, by simp [TreeState.step, htag, h]⟩
  · rw [if_pos (hempty.1 h)]
    simp [TreeState.step, htag, h]

/-- A slash in a value makes the element one that is never open. -/
theorem kept_off_open_elements_bare_slash :
    let source := utf8 "<a href=x/ ><br />"
    ∃ tok ∈ tokenize source [], ∃ tag, Tag.ofToken? tok = some tag ∧ tag.isEmpty = false ∧
      tag.endsInBareSlash = true ∧ tok.kind = .emptyTag := by
  intro source
  let tok : Token := ⟨.emptyTag, utf8 "<a href=x/ >", 0, source, []⟩
  have hmem : tok ∈ tokenize source [] := by decide +kernel
  obtain ⟨tag, htag, hslash⟩ : ∃ tag, Tag.ofToken? tok = some tag ∧
      (tag.isEmpty = false ∧ tag.endsInBareSlash = true) := by
    have hread : (Tag.ofToken? tok).any (fun tag => !tag.isEmpty && tag.endsInBareSlash) = true := by decide +kernel
    cases h : Tag.ofToken? tok with
    | none => simp [h] at hread
    | some tag => exact ⟨tag, rfl, by simpa [h] using hread⟩
  exact ⟨tok, hmem, tag, htag, hslash.1, hslash.2,
    (kept_off_open_elements hmem (.inr rfl) htag).1.2 (.inr hslash.2)⟩

/-- Not every empty tag token closes itself: the end tag of such an element is refused. -/
theorem emptyTag_not_isEmpty :
    (∃ tok ∈ tokenize (utf8 "<a href=x/ >t</a>") [], ∃ tag, Tag.ofToken? tok = some tag ∧
      tok.kind = .emptyTag ∧ tag.isEmpty = false) ∧
    (parse (utf8 "<a href=x/ >t</a>") []).isOk = false := by
  let tok : Token := ⟨.emptyTag, utf8 "<a href=x/ >", 0, utf8 "<a href=x/ >t</a>", []⟩
  have hread : (Tag.ofToken? tok).any (fun tag => !tag.isEmpty) = true := by decide +kernel
  refine ⟨⟨tok, by decide +kernel, ?_⟩, by decide +kernel⟩
  cases h : Tag.ofToken? tok with
  | none => simp [h] at hread
  | some tag => exact ⟨tag, rfl, rfl, by simpa [h] using hread⟩

end PageTemplate.Markup
