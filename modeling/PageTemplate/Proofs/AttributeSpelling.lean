import PageTemplate.Proofs.Escaping
import PageTemplate.Proofs.StartTags

/-!
Attributes as they are written out. An attribute is read back if its value fits between its quotes, or where there are
none; escaped texts do. What is fixed about the attributes of a program can be written.
-/

namespace PageTemplate

open Markup (Spelling RawAttribute IsAttributeName isAttributeNameByte)

variable {name : Bytes} {q : UInt8} {ds : Directives}

namespace Markup

variable {a : Spelling}

/-- An equals sign with blanks around it. -/
def IsEquals (eq : Bytes) : Prop :=
  ∃ before after : Bytes, eq = before ++ Byte.equals :: after ∧ (∀ b ∈ before, Byte.isBlank b = true) ∧
    ∀ b ∈ after, Byte.isBlank b = true

def IsQuotes (quote : Bytes) : Prop := quote = [] ∨ ∃ q, Byte.isQuote q = true ∧ quote = [q]

theorem legible_of_fits {space eq quote w : Bytes} (hne : space ≠ [])
    (hspace : ∀ b ∈ space, Byte.isBlank b = true) (hname : IsAttributeName name) (heq : IsEquals eq)
    (hquote : IsQuotes quote) (hw : Fits quote w) : Spelling.Legible ⟨space, name, ⟨eq, quote, w⟩⟩ := by
  obtain ⟨before, after, rfl, hbefore, hafter⟩ := heq
  have hblank : ∀ b, Byte.isBlank b = true → b ≠ Byte.nul ∧ b ≠ Byte.less :=
    fun b hb => ⟨ne_of_class hb rfl, ne_of_class hb rfl⟩
  refine ⟨⟨hne, hspace, hname.ne_nil, hname.byte, ?_⟩, fun b hb => ?_⟩
  · rcases hquote with rfl | ⟨q, hq, rfl⟩
    · exact .bare hbefore hafter (hw.bare rfl).1 fun b hb => ((hw.bare rfl).2 b hb).1
    · exact .quoted hbefore hafter hq (hw.quoted q List.mem_cons_self)
  · simp only [Spelling.outside, List.mem_append, List.mem_cons] at hb
    rcases hb with ((hb | hb) | hb | rfl | hb) | hb
    · exact hblank b (hspace b hb)
    · exact ⟨fun h => hname.nul (h ▸ hb), ne_of_class (hname.byte b hb) rfl⟩
    · exact hblank b (hbefore b hb)
    · decide
    · exact hblank b (hafter b hb)
    · split at hb
      · next hbare => exact ((hw.bare hbare).2 b hb).2
      · simp at hb

/-- An attribute as it is written for an entry of a mapping. -/
def entrySpelling (name w : Bytes) : Spelling := ⟨[Byte.space], name, ⟨[Byte.equals], [Byte.doubleQuote], w⟩⟩

@[simp] theorem text_entrySpelling (name w : Bytes) :
    (entrySpelling name w).text = utf8 " " ++ name ++ utf8 "=\"" ++ w ++ utf8 "\"" := by
  have hspace : utf8 " " = [Byte.space] := rfl
  have hopening : utf8 "=\"" = [Byte.equals, Byte.doubleQuote] := rfl
  have hclosing : utf8 "\"" = [Byte.doubleQuote] := rfl
  simp [entrySpelling, Spelling.text, AttributeValue.text, hspace, hopening, hclosing]

theorem legible_entrySpelling {w : Bytes} (hname : IsAttributeName name) (hw : Byte.doubleQuote ∉ w) :
    (entrySpelling name w).Legible :=
  legible_of_fits (by simp) (List.forall_mem_singleton.2 rfl) hname ⟨[], [], rfl, by simp, by simp⟩ (.inr ⟨_, rfl, rfl⟩)
    ⟨by simpa using hw, by simp⟩

theorem IsAttributeName.notMem (hname : IsAttributeName name) (hq : Byte.isQuote q = true) : q ∉ name := by
  intro hmem
  have hbyte := hname.byte q hmem
  simp [isAttributeNameByte, hq] at hbyte

theorem Spelling.Legible.isAttributeName (ha : a.Legible) : IsAttributeName a.name :=
  ⟨ha.name_ne_nil, ha.name, fun hnul => (ha.outside _ (by simp [Spelling.outside, hnul])).1 rfl⟩

theorem Spelling.Legible.delimiters (ha : a.Legible) (heq : a.value.eq ≠ []) :
    IsEquals a.value.eq ∧ IsQuotes a.value.quote := by
  obtain ⟨space, name, v⟩ := a
  have hv := ha.value
  cases hv with
  | absent => simp at heq
  | quoted hbefore hafter hq _ => exact ⟨⟨_, _, rfl, hbefore, hafter⟩, .inr ⟨_, hq, rfl⟩⟩
  | bare hbefore hafter _ _ => exact ⟨⟨_, _, rfl, hbefore, hafter⟩, .inl rfl⟩

end Markup

/-- The text can stand without quotes when it is escaped. -/
def NeedsNoQuotes (s : Bytes) : Prop :=
  s ≠ [] ∧ ∀ b ∈ s, Byte.isBlank b = false ∧ b ≠ Byte.singleQuote ∧ b ≠ Byte.nul

theorem fits_escapeAttribute {quote s : Bytes} (hquote : Markup.IsQuotes quote) (hs : quote = [] → NeedsNoQuotes s) :
    Fits quote (escapeAttribute s quote) := by
  rcases hquote with rfl | ⟨q, hq, rfl⟩
  · obtain ⟨hne, hbytes⟩ := hs rfl
    have hentity : ∀ e ∈ entities, ∀ c ∈ e.1, Markup.isBareByte c = true ∧ c ≠ Byte.nul ∧ c ≠ Byte.less := by
      decide +kernel
    refine ⟨by simp, fun _ => ⟨fun hnil => ?_, fun c hc => ?_⟩⟩
    · have hdecode := decode_escapeAttribute s []
      rw [hnil] at hdecode
      exact hne (by simpa [decode] using hdecode.symm)
    · obtain ⟨b, hb, hc⟩ := List.mem_flatMap.1 hc
      obtain ⟨hblank, hsingle, hnul⟩ := hbytes b hb
      rcases spells_escapeAttributeByte [] b with ⟨_, e, he, _, hwrite⟩ | ⟨hnot, hwrite⟩
      · exact hentity e he c (hwrite ▸ hc)
      · obtain rfl := List.mem_singleton.1 (hwrite ▸ hc)
        simp only [reservedQuote, markupBytes, List.mem_cons, not_or] at hnot
        simp_all [Markup.isBareByte, Byte.isQuote]
  · exact ⟨by simpa using notMem_escapeAttribute hq s, by simp⟩

namespace DynamicAttribute

variable {ε : Type} {d : DynamicAttribute ε}

def spelled (d : DynamicAttribute ε) (w : Bytes) : Spelling := ⟨d.space, d.name, ⟨d.eq, d.quote, w⟩⟩

@[simp] theorem text_spelled (d : DynamicAttribute ε) (w : Bytes) :
    (d.spelled w).text = d.space ++ d.name ++ d.eq ++ d.quote ++ w ++ d.quote := by
  simp [spelled, Spelling.text, Markup.AttributeValue.text]

/-- What is fixed about the attribute can be read. Only a name to be translated may be another. -/
structure Spellable (d : DynamicAttribute ε) : Prop where
  space_ne_nil : d.space ≠ []
  space : ∀ b ∈ d.space, Byte.isBlank b = true
  name : d.translate = false → IsAttributeName d.name
  eq : Markup.IsEquals d.eq
  quote : Markup.IsQuotes d.quote
  value : d.value.Fits d.quote
  written : ∀ s, d.written = some s → Fits d.quote s

theorem Spellable.legible (hd : d.Spellable) (hname : IsAttributeName d.name) {w : Bytes} (hw : Fits d.quote w) :
    (d.spelled w).Legible :=
  Markup.legible_of_fits hd.space_ne_nil hd.space hname hd.eq hd.quote hw

theorem Spellable.quote_eq (hd : d.Spellable) (hq : q ∈ d.quote) : Byte.isQuote q = true ∧ d.quote = [q] := by
  rcases hd.quote with hquote | ⟨q', hq', hquote⟩
  · simp [hquote] at hq
  · obtain rfl : q = q' := by simpa [hquote] using hq
    exact ⟨hq', hquote⟩

theorem Keeps.spellable {a : RawAttribute} (hd : d.Keeps ds a) (ha : a.spelling.Legible) : d.Spellable := by
  have hname : IsAttributeName d.name := hd.name ▸ ha.isAttributeName
  have hwritten : ∀ s, d.written = some s → Fits d.quote s :=
    fun s hs => (hd.written s hs).2 ▸ fits_written ha hd.delimiters
  have hdelimiters := hd.delimiters
  by_cases hvalue : a.hasValue = true
  · rw [if_pos hvalue, Prod.mk.injEq] at hdelimiters
    have hshape := ha.delimiters (by simpa [RawAttribute.hasValue, RawAttribute.spelling] using hvalue)
    exact ⟨hd.space ▸ ha.space_ne_nil, hd.space ▸ ha.space, fun _ => hname, hdelimiters.1 ▸ hshape.1,
      hdelimiters.2 ▸ hshape.2, hd.value, hwritten⟩
  · rw [if_neg hvalue, Prod.mk.injEq] at hdelimiters
    exact ⟨hd.space ▸ ha.space_ne_nil, hd.space ▸ ha.space, fun _ => hname,
      ⟨[], [], hdelimiters.1, by simp, by simp⟩, .inr ⟨_, rfl, hdelimiters.2⟩, hd.value, hwritten⟩

theorem Added.spellable (hd : d.Added ds) : d.Spellable where
  space_ne_nil := by simp [hd.space]
  space := by
    intro b hb
    obtain rfl : b = Byte.space := by simpa [hd.space] using hb
    rfl
  name htranslate := by
    rcases hd.name with ⟨t, entries, entry, _, hentries, hmem, hname⟩ | ⟨htranslated, _⟩
    · exact ((Clause.distinct_of_attributes hentries).isName hmem hname).isAttributeName
    · simp [htranslate] at htranslated
  eq := ⟨[], [], hd.eq, by simp, by simp⟩
  quote := .inr ⟨_, rfl, hd.quote⟩
  value := hd.value
  written s hs := by simp [hd.written] at hs

end DynamicAttribute

/-- What is fixed about a node of a start tag is such as is read. -/
def Node.Spellable {ε : Type} : Node ε → Prop
  | .text s => ∃ a : Spelling, a.Legible ∧ a.text = s
  | .attr d => d.Spellable
  | .attributeMap _ _ => True
  | _ => False

theorem AttributesOf.spellable {ε : Type} {written : List RawAttribute} {attributes : List (Node ε)}
    (h : AttributesOf ds written attributes) (hwritten : ∀ a ∈ written, a.spelling.Legible) :
    ∀ n ∈ attributes, n.Spellable := by
  obtain ⟨kept, added, maps, rfl, hkept, hadded, _⟩ := h.parts
  intro n hn
  rcases List.mem_append.1 hn with hn | hn
  · rcases List.mem_append.1 hn with hn | hn
    · obtain ⟨a, ha, hkeeps⟩ := exists_of_forall₂ hkept hn
      cases hkeeps with
      | text => exact ⟨a.spelling, hwritten a ha, a.text_spelling⟩
      | attr hd => exact hd.spellable (hwritten a ha)
    · obtain ⟨d, hd, rfl⟩ := List.mem_map.1 hn
      exact (hadded d hd).spellable
  · obtain ⟨e, _, rfl⟩ := List.mem_map.1 hn
    trivial

theorem Node.Originates.spellable {ε : Type} {source filename lead tail : Bytes} {attributes : List (Node ε)}
    (h : (Node.startTag lead name attributes tail).Originates source filename) : ∀ n ∈ attributes, n.Spellable := by
  obtain ⟨tree, head, ds, written, hparse, hhead, hclassify, _, _, _, hof⟩ := h
  have hlegible := legible_written hparse hhead hclassify
  rcases hof with hof | ⟨_, rfl⟩
  · exact hof.spellable hlegible
  · intro n hn
    obtain ⟨a, ha, rfl⟩ := List.mem_map.1 hn
    exact ⟨a.spelling, hlegible a ha, a.text_spelling⟩

end PageTemplate
