import PageTemplate.Proofs.Escaping
import PageTemplate.Proofs.Markup.PlainTags

/-!
Escaped texts as a part of a source. What is written for a text can be read back, and nothing of it is taken for markup,
be it in the text of a page or between the quotes of an attribute. The main statement is `escaped_text_inert`.
-/

namespace PageTemplate.Markup

/-- A text that can be read back, in which nothing has a meaning for markup but ampersands that begin entities. -/
structure Inert (reserved : List UInt8) (s written : Bytes) : Prop where
  less : Byte.less ∉ written
  greater : Byte.greater ∉ written
  entity : ∀ before after, written = before ++ Byte.ampersand :: after →
    ∃ e ∈ entities, e.2 ∈ reserved ∧ e.1 <+: Byte.ampersand :: after
  decode : decode written = s
  tokens : ∀ filename, tokenize written filename = if written = [] then [] else [.whole written filename]

/-- A text without a `<` is one token, unless it is empty. -/
theorem tokenize_of_notMem {t : Bytes} (h : Byte.less ∉ t) (filename : Bytes) :
    tokenize t filename = if t = [] then [] else [.whole t filename] := by
  cases t with
  | nil => rw [tokenize, tokensFrom, if_pos rfl]
  | cons c s =>
    rw [List.mem_cons, not_or] at h
    have htext : s.takeWhile (· ≠ Byte.less) = s := by
      rw [List.takeWhile_eq_self_iff]
      intro b hb
      exact decide_eq_true fun hless => h.2 (hless ▸ hb)
    have hlexeme : lexeme c s = (.text, s.length) := by
      rw [lexeme, if_neg (Ne.symm h.1), textRest, htext]
    rw [tokenize, tokensFrom, hlexeme, List.take_length, List.drop_length, tokensFrom]
    rfl

theorem inert_of_spells {reserved : List UInt8} {write : UInt8 → Bytes} (h : Spells reserved write)
    (hreserved : markupBytes ⊆ reserved) (s : Bytes) : Inert reserved s (s.flatMap write) := by
  have hless : Byte.less ∉ s.flatMap write :=
    h.notMem (hreserved (by decide)) (notMem_entity (.inr (.inl rfl))) s
  have hampersand : Byte.ampersand ∈ reserved := hreserved (by decide)
  exact {
    less := hless
    greater := h.notMem (hreserved (by decide)) (notMem_entity (.inr (.inr rfl))) s
    entity := fun _ _ => h.entity_of_ampersand hampersand
    decode := by simpa [PageTemplate.decode] using h.decode_append hampersand s []
    tokens := tokenize_of_notMem hless }

theorem inert_escapeAttribute {q : UInt8} (hq : Byte.isQuote q = true) (s : Bytes) :
    Inert (q :: markupBytes) s (escapeAttribute s [q]) := by
  have hspells := spells_escapeAttributeByte [q]
  rw [reservedQuote_of_isQuote hq] at hspells
  exact inert_of_spells hspells (List.subset_cons_self _ _) s

namespace Spelling

def withValue (a : Spelling) (value : Bytes) : Spelling := { a with value := { a.value with value } }

variable {a : Spelling} {q : UInt8} {value : Bytes}

theorem Legible.withValue (ha : a.Legible) (hquote : a.value.quote = [q]) (hvalue : q ∉ value) :
    (a.withValue value).Legible where
  space_ne_nil := ha.space_ne_nil
  space := ha.space
  name_ne_nil := ha.name_ne_nil
  name := ha.name
  value := by
    obtain ⟨space, name, v⟩ := a
    cases ha.value with
    | absent => cases hquote
    | quoted hbefore hafter hq =>
      cases hquote
      exact .quoted hbefore hafter hq hvalue
    | bare => cases hquote
  outside := by
    have houtside := ha.outside
    simpa [Spelling.outside, Spelling.withValue, hquote] using houtside

/-- An attribute with quotes does not end in a slash, so what follows decides how the tag ends. -/
theorem getLast?_of_withValue (hq : Byte.isQuote q = true) (hquote : a.value.quote = [q]) {as bs : List Spelling}
    (h : ((as ++ a.withValue value :: bs).flatMap text).getLast? = some Byte.slash) :
    (bs.flatMap text).getLast? = some Byte.slash := by
  have htext : (as ++ a.withValue value :: bs).flatMap text =
      (as.flatMap text ++ (a.space ++ (a.name ++ (a.value.eq ++ q :: value)))) ++ ([q] ++ bs.flatMap text) := by
    simp [text, Spelling.withValue, AttributeValue.text, hquote]
  rw [htext, List.getLast?_append_of_ne_nil _ (by simp)] at h
  by_cases hnil : bs.flatMap text = []
  · rw [hnil, List.append_nil, List.getLast?_singleton, Option.some_inj] at h
    rw [h] at hq
    cases hq
  · rwa [List.getLast?_append_of_ne_nil _ hnil] at h

end Spelling

/-- Escaping loses nothing and leaves no markup: neither `<` nor `>`, no ampersand but at the beginning of an entity,
and at most one token, of text. So it is for texts and attribute values. A value moreover lacks the quote it is escaped
for: between such quotes in a start tag, it leaves the tag one token with the same parts, and is the whole value of its
attribute. -/
theorem escaped_text_inert :
    Function.Injective escape ∧ (∀ s, Inert markupBytes s (escape s)) ∧
      ∀ q, Byte.isQuote q = true → Function.Injective (escapeAttribute · [q]) ∧
        ∀ s, Inert (q :: markupBytes) s (escapeAttribute s [q]) ∧ q ∉ escapeAttribute s [q] ∧
          ∀ (name tail filename : Bytes) (as : List Spelling) (a : Spelling) (bs : List Spelling),
            IsTagName name → (∀ x ∈ as ++ a :: bs, x.Legible) → a.value.quote = [q] → IsEnding tail →
            ((bs.flatMap Spelling.text).getLast? = some Byte.slash → tail.head? ≠ some Byte.greater) →
            let as' := as ++ a.withValue (escapeAttribute s [q]) :: bs
            ∃ tok tag, tokenize (utf8 "<" ++ name ++ as'.flatMap Spelling.text ++ tail) filename = [tok] ∧
              (tok.kind = .startTag ∨ tok.kind = .emptyTag) ∧ Tag.ofToken? tok = some tag ∧ tag.name.value = name ∧
              tag.attributes.map RawAttribute.spelling = as' ∧ tag.ending = tail := by
  have hescape : ∀ s, Inert markupBytes s (escape s) := inert_of_spells spells_escapeByte (List.Subset.refl _)
  refine ⟨Function.LeftInverse.injective fun s => (hescape s).decode, hescape, fun q hq => ?_⟩
  refine ⟨Function.LeftInverse.injective fun s => (inert_escapeAttribute hq s).decode, fun s => ?_⟩
  have hvalue := notMem_escapeAttribute hq s
  refine ⟨inert_escapeAttribute hq s, hvalue, ?_⟩
  intro name tail filename as a bs hname hlegible hquote htail hslash as'
  rw [List.forall_mem_append, List.forall_mem_cons] at hlegible
  refine tokenize_written hname ?_ htail (fun h => hslash (Spelling.getLast?_of_withValue hq hquote h)) filename
  rw [List.forall_mem_append, List.forall_mem_cons]
  exact ⟨hlegible.1, hlegible.2.1.withValue hquote hvalue, hlegible.2.2⟩

/-- A value that would end its attribute and the tag stays within its quotes. -/
theorem escaped_text_inert_hostile_value :
    let value := escapeAttribute (utf8 "\"/><b x='&") (utf8 "\"")
    let as := [⟨utf8 " ", utf8 "x", ⟨utf8 "=", utf8 "\"", value⟩⟩, ⟨utf8 " ", utf8 "y", ⟨[], [], []⟩⟩]
    ∃ tok tag, tokenize (utf8 "<p x=\"&quot;/&gt;&lt;b x='&amp;\" y>") [] = [tok] ∧
      (tok.kind = .startTag ∨ tok.kind = .emptyTag) ∧ Tag.ofToken? tok = some tag ∧ tag.name.value = utf8 "p" ∧
      tag.attributes.map RawAttribute.spelling = as ∧ tag.ending = utf8 ">" := by
  have hx : Spelling.Plain ⟨utf8 " ", utf8 "x", ⟨utf8 "=", utf8 "\"", []⟩⟩ :=
    ⟨by decide, List.all_eq_true.1 rfl, ⟨by decide, List.all_eq_true.1 rfl, by decide⟩,
      .quoted (List.forall_mem_nil _) (List.forall_mem_nil _) rfl (by decide)⟩
  have hy : Spelling.Plain ⟨utf8 " ", utf8 "y", ⟨[], [], []⟩⟩ :=
    ⟨by decide, List.all_eq_true.1 rfl, ⟨by decide, List.all_eq_true.1 rfl, by decide⟩, .absent⟩
  exact ((escaped_text_inert.2.2 Byte.doubleQuote rfl).2 (utf8 "\"/><b x='&")).2.2 (utf8 "p") (utf8 ">") [] []
    ⟨utf8 " ", utf8 "x", ⟨utf8 "=", utf8 "\"", []⟩⟩ [⟨utf8 " ", utf8 "y", ⟨[], [], []⟩⟩]
    ⟨⟨_, _, rfl, rfl⟩, List.all_eq_true.1 rfl⟩ (List.forall_mem_cons.2
      ⟨hx.legible, List.forall_mem_singleton.2 hy.legible⟩) rfl
    ⟨[], List.forall_mem_nil _, .inl rfl⟩ (by decide)

end PageTemplate.Markup
