import PageTemplate.Proofs.AttributeSpelling
import PageTemplate.Proofs.ErrorReport
import PageTemplate.Translation.Catalog

/-!
Values in start tags. A value that is worked out while a start tag is rendered stays within its attribute: read again,
the tag has just the attributes that the template and the keys of mappings name, and each value stands for what was
inserted. `Carries` says which attributes a node comes to; the main statement is `start_tag_read_back`. Texts that are
inserted as they are can do harm, and so can values without quotes; `Harmless` says what is asked of these.
-/

namespace PageTemplate

open Markup (Spelling RawAttribute IsAttributeName isAttributeNameByte)

variable {s : Bytes}

namespace Value

variable {v : Value}

/-- The value is inserted as this text, whatever the heap holds: as markup, or escaped. -/
def Shows (v : Value) (markup : Bool) (s : Bytes) : Prop :=
  ∀ h : Heap, (h.resolve v).markup?.isSome = markup ∧ (h.resolve v).toText = s

theorem shows_text (s : Bytes) : (Value.text s).Shows false s := fun _ => ⟨rfl, rfl⟩

theorem shows_markup (s : Bytes) : (Value.markup s).Shows true s := fun _ => ⟨rfl, rfl⟩

theorem toText_of_markup? (h : v.markup? = some s) : v.toText = s := by
  unfold toText
  split
  · cases h
  · cases h
  · rw [h]

theorem Shows.toAttribute {markup : Bool} (hv : v.Shows markup s) (h : Heap) (quote : Bytes) :
    (h.resolve v).toAttribute quote = if markup then s else escapeAttribute s quote := by
  obtain ⟨hmarkup, htext⟩ := hv h
  rw [Value.toAttribute]
  cases hm : (h.resolve v).markup? with
  | none =>
    obtain rfl : false = markup := by simpa [hm] using hmarkup
    simp [htext]
  | some t =>
    obtain rfl : true = markup := by simpa [hm] using hmarkup
    simp [← htext, toText_of_markup? hm]

end Value

/-! ### What a start tag carries -/

def Operand.Mentions {ε : Type} (e : ε) : Operand ε → Prop
  | .expr e' => e' = e
  | .interpolated _ parts => .expr e ∈ parts
  | _ => False

/-- The value of the attribute is that of one expression. -/
def DynamicAttribute.Asks {ε : Type} (d : DynamicAttribute ε) (e : ε) : Prop :=
  d.value = .expr e ∨ ∃ source, d.value = .interpolated source [.expr e]

namespace Render

open Run

variable {ps : List (Part Compiled)} {w : Bytes} {n : Node Compiled}

/-- The message that is translated for the text of an attribute. -/
def messageOf (d : DynamicAttribute Compiled) (s : Bytes) : Bytes := if d.msgid.isEmpty then s else d.msgid

/-- The text of an attribute or its translation, if that is asked for and there is a message. -/
def Becomes (events : List Event) (d : DynamicAttribute Compiled) (s t : Bytes) : Prop :=
  if d.translate = false ∨ messageOf d s = [] then t = s else .translated (messageOf d s) t ∈ events

/-- The parts of a text, joined, and what they stand for. Each piece is read as the text of its value, whatever follows.
-/
inductive Joined (events : List Event) : List (Part Compiled) → Bytes → Bytes → Prop where
  | nil : Joined events [] [] []
  | literal {s : Bytes} {ps : List (Part Compiled)} {w t : Bytes} :
      Joined events ps w t → Joined events (.literal s :: ps) (s ++ w) (decode s ++ t)
  | blank {e : Compiled} {v : Value} {ps : List (Part Compiled)} {w t : Bytes} :
      Gave events e v → isBlank v = true → Joined events ps w t → Joined events (.expr e :: ps) w t
  | inserted {e : Compiled} {v : Value} {s piece : Bytes} {ps : List (Part Compiled)} {w t : Bytes} :
      Gave events e v → v.Shows false s → (∀ rest, decode (piece ++ rest) = s ++ decode rest) →
      Joined events ps w t → Joined events (.expr e :: ps) (piece ++ w) (s ++ t)

/-- The value of an attribute: fixed, given for its one expression, or made of its parts. -/
inductive WorksOut (events : List Event) (d : DynamicAttribute Compiled) : Value → Prop where
  | literal {s : Bytes} : d.value = .literal s → WorksOut events d (.markup s)
  | asked {e : Compiled} {v : Value} : d.Asks e → Gave events e v → WorksOut events d v
  | joined {source : Bytes} {parts : List (Part Compiled)} {w t : Bytes} : d.value = .interpolated source parts →
      (∀ e, parts ≠ [.expr e]) → Joined events parts w t →
      ((∀ s, .literal s ∈ parts → Finished s) → decode w = t) → WorksOut events d (.markup w)

/-- What an entry of a mapping comes to. -/
inductive CarriesEntry (exclude : List Bytes) : Bytes × Value → List Spelling → Prop where
  | excluded {name : Bytes} {v : Value} : Text.lower name ∈ exclude → CarriesEntry exclude (name, v) []
  | dropped {name : Bytes} {v : Value} : dropsAttribute v = true → CarriesEntry exclude (name, v) []
  | absent {name : Bytes} {v : Value} {h : Heap} :
      Markup.isBooleanAttribute name = true → (h.resolve v).truthy = false → CarriesEntry exclude (name, v) []
  | present {name : Bytes} {v : Value} {h : Heap} :
      Markup.isBooleanAttribute name = true → (h.resolve v).truthy = true →
      CarriesEntry exclude (name, v) [Markup.entrySpelling name name]
  | inserted {name : Bytes} {v : Value} {s w : Bytes} : v.Shows false s → decode w = s →
      CarriesEntry exclude (name, v) [Markup.entrySpelling name w]

/-- The attributes that a node of a start tag comes to. A value is read as the inserted text, unless a boolean attribute
is written by presence or the default marker brings back what was written. -/
inductive Carries (events : List Event) : Node Compiled → List Spelling → Prop where
  | literal (a : Spelling) : Carries events (.text a.text) [a]
  | kept {d : DynamicAttribute Compiled} {s : Bytes} :
      WorksOut events d .default → d.written = some s → Carries events (.attr d) [d.spelled s]
  | dropped {d : DynamicAttribute Compiled} {v : Value} : WorksOut events d v →
      v = .default ∧ d.written = none ∨ dropsAttribute v = true → Carries events (.attr d) []
  | absent {d : DynamicAttribute Compiled} {v : Value} {h : Heap} :
      d.boolean = true → WorksOut events d v → (h.resolve v).truthy = false → Carries events (.attr d) []
  | present {d : DynamicAttribute Compiled} {v : Value} {h : Heap} {w : Bytes} :
      d.boolean = true → WorksOut events d v → (h.resolve v).truthy = true → Becomes events d d.name w →
      Carries events (.attr d) [d.spelled w]
  | inserted {d : DynamicAttribute Compiled} {v : Value} {s t w : Bytes} :
      WorksOut events d v → v.Shows false s → Becomes events d s t → decode w = t →
      Carries events (.attr d) [d.spelled w]
  | markup {d : DynamicAttribute Compiled} {s w : Bytes} :
      WorksOut events d (.markup s) → Becomes events d s w → Carries events (.attr d) [d.spelled w]
  | entries {e : Compiled} {exclude : List Bytes} {v : Value} {world : World} {entries : Assoc Value}
      {segments : List (List Spelling)} : Gave events e v → mapEntries world v = .ok entries →
      List.Forall₂ (CarriesEntry exclude) entries segments →
      Carries events (.attributeMap e exclude) segments.flatten

/-- What is asked of an attribute that is worked out. Its values are plain, without quotes their texts need none, markup
that is translated or unquoted fits its place, and a name that only asks for a translation is one. -/
structure HarmlessAttribute (events : List Event) (d : DynamicAttribute Compiled) : Prop where
  plain : ∀ e v, d.value.Mentions e → Gave events e v → ∃ s, v.Shows false s
  bare : d.quote = [] → ∀ v s t, WorksOut events d v → v.Shows false s → Becomes events d s t → NeedsNoQuotes t
  markup : d.translate = true ∨ d.quote = [] →
    ∀ s t, (WorksOut events d (.markup s) ∨ d.boolean = true ∧ s = d.name) → Becomes events d s t → Fits d.quote t
  name : d.translate = true → IsAttributeName d.name

/-- What is asked of a node of a start tag. The keys of a mapping have to be names. -/
def Harmless (events : List Event) : Node Compiled → Prop
  | .attr d => HarmlessAttribute events d
  | .attributeMap e _ => ∀ v world entries, Gave events e v → mapEntries world v = .ok entries →
      ∀ entry ∈ entries, IsAttributeName entry.1 ∧ ∃ s, entry.2.Shows false s
  | _ => True

section Monotone

variable {events events' : List Event} (hsub : events ⊆ events')
variable {d : DynamicAttribute Compiled}
include hsub

theorem Becomes.mono {t : Bytes} (h : Becomes events d s t) : Becomes events' d s t := by
  unfold Becomes at h ⊢
  split at h
  · next hkept => rwa [if_pos hkept]
  · next hasked =>
    rw [if_neg hasked]
    exact hsub h

theorem Joined.mono {t : Bytes} (h : Joined events ps w t) : Joined events' ps w t := by
  induction h with
  | nil => exact .nil
  | literal _ ih => exact .literal ih
  | blank hgave hblank _ ih => exact .blank (hgave.mono hsub) hblank ih
  | inserted hgave hshows hread _ ih => exact .inserted (hgave.mono hsub) hshows hread ih

theorem WorksOut.mono {v : Value} (h : WorksOut events d v) : WorksOut events' d v := by
  cases h with
  | literal hvalue => exact .literal hvalue
  | asked hasks hgave => exact .asked hasks (hgave.mono hsub)
  | joined hvalue hmany hjoined hread => exact .joined hvalue hmany (hjoined.mono hsub) hread

theorem Carries.mono {as : List Spelling} (h : Carries events n as) : Carries events' n as := by
  cases h with
  | literal a => exact .literal a
  | kept hv hs => exact .kept (hv.mono hsub) hs
  | dropped hv hd => exact .dropped (hv.mono hsub) hd
  | absent hb hv ht => exact .absent hb (hv.mono hsub) ht
  | present hb hv ht hw => exact .present hb (hv.mono hsub) ht (hw.mono hsub)
  | inserted hv hs ht hw => exact .inserted (hv.mono hsub) hs (ht.mono hsub) hw
  | markup hv hw => exact .markup (hv.mono hsub) (hw.mono hsub)
  | entries hgave hentries hsegments => exact .entries (hgave.mono hsub) hentries hsegments

theorem HarmlessAttribute.mono (h : HarmlessAttribute events' d) :
    HarmlessAttribute events d where
  plain e v hmentions hgave := h.plain e v hmentions (hgave.mono hsub)
  bare hbare v s t hv hs hbecomes := h.bare hbare v s t (hv.mono hsub) hs (hbecomes.mono hsub)
  markup hinserted s t hs hbecomes := h.markup hinserted s t (hs.imp_left (WorksOut.mono hsub)) (hbecomes.mono hsub)
  name := h.name

theorem Harmless.mono (h : Harmless events' n) : Harmless events n := by
  cases n with
  | attr d => exact HarmlessAttribute.mono hsub h
  | attributeMap e exclude => exact fun v world entries hgave => h v world entries (hgave.mono hsub)
  | _ => trivial

end Monotone

/-- From one state to the other these events have happened, newest first, and this text has been written. -/
structure Extends (events : List Event) (w : Bytes) (st st' : State) : Prop where
  happened : st'.events = events ++ st.events
  written : st'.out.text = st.out.text ++ w

theorem Extends.refl (st : State) : Extends [] [] st st := ⟨rfl, (List.append_nil _).symm⟩

theorem Extends.trans {events₁ events₂ : List Event} {w₁ w₂ : Bytes} {st st₁ st₂ : State}
    (h₁ : Extends events₁ w₁ st st₁) (h₂ : Extends events₂ w₂ st₁ st₂) :
    Extends (events₂ ++ events₁) (w₁ ++ w₂) st st₂ :=
  ⟨by rw [h₂.happened, h₁.happened, List.append_assoc], by rw [h₂.written, h₁.written, List.append_assoc]⟩

section Steps

variable {st st' : State} {frame : Frame}
variable {v : Value} {t : Bytes} {d : DynamicAttribute Compiled} {events : List Event} {exclude : List Bytes}
variable {e : Compiled} {booleans : Bool}

theorem extends_write (h : (write s).run st = some (.ok (), st')) : Extends [] s st st' := by
  cases h
  exact ⟨rfl, Output.text_append _ _⟩

theorem exists_gave (h : (evaluate frame e).run st = some (.ok v, st')) :
    ∃ events, Extends events [] st st' ∧ Gave events e v := by
  rw [evaluate, run_activation_bind] at h
  split at h
  · cases h
    exact ⟨[.recalled e v], ⟨rfl, (List.append_nil _).symm⟩, _, List.mem_singleton_self _, .recalled⟩
  · rcases run_evaluateFresh_eq_some h with ⟨v', w, hv, rfl⟩ | ⟨f, hf, _⟩
    · cases hv
      exact ⟨[.evaluated e (.ok v)], ⟨rfl, (List.append_nil _).symm⟩, _, List.mem_singleton_self _, .evaluated⟩
    · cases hf

theorem extends_translate {msgid fallback : Bytes} {mapping : Assoc Bytes}
    (h : (translate frame msgid mapping fallback).run st = some (.ok t, st')) :
    Extends [.translated msgid t] [] st st' := by
  rw [translate] at h
  obtain ⟨language, st₁, hlanguage, htext⟩ := run_bind_eq_ok h
  obtain rfl : st₁ = st := by
    rw [targetLanguage, run_get_bind] at hlanguage
    split at hlanguage <;> cases hlanguage <;> rfl
  cases htext
  exact ⟨rfl, (List.append_nil _).symm⟩

theorem exists_translation (hd : d.translate = true) {v' : Value}
    (h : (translateValue frame d.msgid v).run st = some (.ok v', st')) :
    ∃ events, Extends events [] st st' ∧
      ∀ markup s, v.Shows markup s → ∃ t, Becomes events d s t ∧ v'.Shows markup t := by
  rw [translateValue, run_resolved_bind] at h
  have hmessage : ∀ markup s, v.Shows markup s →
      (if d.msgid.isEmpty then (st.world.heap.resolve v).toText else d.msgid) = messageOf d s := by
    intro markup s hs
    rw [(hs st.world.heap).2, messageOf]
  dsimp only at h
  -- The heap is that of the state, but what the value shows does not depend on it.
  generalize (if d.msgid.isEmpty then (st.world.heap.resolve v).toText else d.msgid) = msgid at h hmessage
  split at h
  · next hempty =>
    cases h
    refine ⟨[], .refl st, fun markup s hs => ⟨s, ?_, hs⟩⟩
    rw [Becomes, if_pos (.inr ((hmessage markup s hs).symm.trans (List.isEmpty_iff.1 hempty)))]
  · next hsome =>
    obtain ⟨t, st₁, ht, h⟩ := run_bind_eq_ok h
    cases h
    refine ⟨_, extends_translate ht, fun markup s hs => ⟨t, ?_, ?_⟩⟩
    · rw [Becomes, ← hmessage markup s hs, if_neg (by simpa [hd] using hsome)]
      exact List.mem_singleton_self _
    · rw [(hs st.world.heap).1]
      cases markup
      · exact Value.shows_text t
      · exact Value.shows_markup t

theorem exists_spelled (h : (writeAttribute frame d v).run st = some (.ok (), st')) :
    ∃ events w, Extends events (d.spelled w).text st st' ∧
      ∀ markup s, v.Shows markup s →
        ∃ t, Becomes events d s t ∧ w = if markup then t else escapeAttribute t d.quote := by
  have htranslated : ∃ v' st₁ events, Extends events [] st st₁ ∧
      (resolved v' >>= fun shown =>
        write (d.space ++ d.name ++ d.eq ++ d.quote ++ shown.toAttribute d.quote ++ d.quote)).run st₁ =
          some (.ok (), st') ∧
      ∀ markup s, v.Shows markup s → ∃ t, Becomes events d s t ∧ v'.Shows markup t := by
    rw [writeAttribute] at h
    split at h
    · next htranslate =>
      obtain ⟨v', st₁, hv', hwrite⟩ := run_bind_eq_ok h
      obtain ⟨events, hextends, hshows⟩ := exists_translation htranslate hv'
      exact ⟨v', st₁, events, hextends, hwrite, hshows⟩
    · next htranslate =>
      refine ⟨v, st, [], .refl st, h, fun markup s hs => ⟨s, ?_, hs⟩⟩
      rw [Becomes, if_pos (.inl (by simpa using htranslate))]
  obtain ⟨v', st₁, events, hextends, hwrite, hshows⟩ := htranslated
  rw [run_resolved_bind] at hwrite
  refine ⟨events, (st₁.world.heap.resolve v').toAttribute d.quote, ?_, fun markup s hs => ?_⟩
  · rw [DynamicAttribute.text_spelled]
    exact hextends.trans (extends_write hwrite)
  · obtain ⟨t, ht, hv'⟩ := hshows markup s hs
    exact ⟨t, ht, hv'.toAttribute _ _⟩

theorem Joined.decode_eq (h : Joined events ps w t) (hps : ∀ s, .literal s ∈ ps → Finished s) : decode w = t := by
  induction h with
  | nil => simp [decode]
  | @literal s ps w t _ ih =>
    rw [decode_append (hps s List.mem_cons_self), ih fun s hs => hps s (List.mem_cons_of_mem _ hs)]
  | blank _ _ _ ih => exact ih fun s hs => hps s (List.mem_cons_of_mem _ hs)
  | inserted _ _ hread _ ih => rw [hread, ih fun s hs => hps s (List.mem_cons_of_mem _ hs)]

theorem exists_joined {quote : Bytes} (h : (attributeParts frame quote ps).run st = some (.ok w, st')) :
    ∃ events, Extends events [] st st' ∧
      ((∀ e v, .expr e ∈ ps → Gave events e v → ∃ s, v.Shows false s) →
        (∃ t, Joined events ps w t) ∧
          ∀ q, Byte.isQuote q = true → quote = [q] → (∀ s, .literal s ∈ ps → q ∉ s) → q ∉ w) := by
  induction ps generalizing st w with
  | nil =>
    cases h
    exact ⟨[], .refl _, fun _ => ⟨⟨[], .nil⟩, by simp⟩⟩
  | cons p ps ih =>
    cases p with
    | literal s =>
      obtain ⟨w, st₁, hw, hend⟩ := run_bind_eq_ok h
      cases hend
      obtain ⟨events, hextends, hjoined⟩ := ih hw
      refine ⟨events, hextends, fun hplain => ?_⟩
      obtain ⟨⟨t, ht⟩, hnot⟩ := hjoined fun e v he => hplain e v (List.mem_cons_of_mem _ he)
      refine ⟨⟨_, .literal ht⟩, fun q hq hquote hliterals => ?_⟩
      rw [List.mem_append, not_or]
      exact ⟨hliterals s List.mem_cons_self, hnot q hq hquote fun s hs => hliterals s (List.mem_cons_of_mem _ hs)⟩
    | expr e =>
      obtain ⟨v, st₁, hv, hrun⟩ := run_bind_eq_ok h
      have hpiece : ∃ piece, (attributeParts frame quote ps >>= fun w => return piece ++ w).run st₁ =
          some (.ok w, st') ∧
            (isBlank v = true ∧ piece = [] ∨ piece = (st₁.world.heap.resolve v).toAttribute quote) := by
        split at hrun
        · next hblank => exact ⟨[], hrun, .inl ⟨hblank, rfl⟩⟩
        · exact ⟨_, hrun, .inr rfl⟩
      obtain ⟨piece, hrun, hpiece⟩ := hpiece
      obtain ⟨w, st₂, hw, hend⟩ := run_bind_eq_ok hrun
      cases hend
      obtain ⟨events₁, hextends₁, hgave⟩ := exists_gave hv
      obtain ⟨events₂, hextends₂, hjoined⟩ := ih hw
      -- The journal has the newest events first, so those of the other parts come before that of this one.
      have hsub : events₂ ⊆ events₂ ++ events₁ := List.subset_append_left _ _
      refine ⟨_, hextends₁.trans hextends₂, fun hplain => ?_⟩
      obtain ⟨⟨t, ht⟩, hnot⟩ := hjoined fun e v he hgave =>
        hplain e v (List.mem_cons_of_mem _ he) (hgave.mono hsub)
      rcases hpiece with ⟨hblank, rfl⟩ | rfl
      · refine ⟨⟨t, .blank (hgave.append _) hblank (ht.mono hsub)⟩, fun q hq hquote hliterals => ?_⟩
        exact hnot q hq hquote fun s hs => hliterals s (List.mem_cons_of_mem _ hs)
      · obtain ⟨s, hs⟩ := hplain e v List.mem_cons_self (hgave.append _)
        rw [hs.toAttribute, if_neg Bool.false_ne_true]
        refine ⟨⟨_, .inserted (hgave.append _) hs (decode_escapeAttribute_append s quote) (ht.mono hsub)⟩, ?_⟩
        rintro q hq rfl hliterals
        rw [List.mem_append, not_or]
        exact ⟨notMem_escapeAttribute hq s, hnot q hq rfl fun s hs => hliterals s (List.mem_cons_of_mem _ hs)⟩

/-- From one state to the other, the attribute is worked out to a plain value, or to markup without its quotes. -/
def WorkedOut (d : DynamicAttribute Compiled) (v : Value) (st st' : State) : Prop :=
  ∃ events, Extends events [] st st' ∧ (HarmlessAttribute events d →
    WorksOut events d v ∧ ((∃ s, v.Shows false s) ∨ ∃ s, v = .markup s ∧ ∀ q ∈ d.quote, q ∉ s))

theorem workedOut (hd : d.Spellable) (h : (attributeValue frame d).run st = some (.ok v, st')) :
    WorkedOut d v st st' := by
  have hfits := hd.value
  have hasked : ∀ {e}, d.Asks e → d.value.Mentions e → (evaluate frame e).run st = some (.ok v, st') →
      WorkedOut d v st st' := by
    intro e hasks hmentions hrun
    obtain ⟨events, hextends, hgave⟩ := exists_gave hrun
    exact ⟨events, hextends, fun hharmless => ⟨.asked hasks hgave, .inl (hharmless.plain e v hmentions hgave)⟩⟩
  rw [attributeValue] at h
  cases hvalue : d.value with
  | literal s =>
    rw [hvalue] at h hfits
    cases h
    exact ⟨[], .refl _, fun _ => ⟨.literal hvalue, .inr ⟨s, rfl, hfits.quoted⟩⟩⟩
  | expr e =>
    have hmentions : d.value.Mentions e := by
      rw [hvalue]
      rfl
    rw [hvalue] at h
    exact hasked (.inl hvalue) hmentions h
  | interpolated source parts =>
    rw [hvalue] at h hfits
    dsimp only at h
    unfold interpolated at h
    split at h
    · next e =>
      have hmentions : d.value.Mentions e := by
        rw [hvalue]
        exact List.mem_singleton_self _
      exact hasked (.inr ⟨source, hvalue⟩) hmentions h
    · next hmany =>
      obtain ⟨w, st₁, hw, hend⟩ := run_bind_eq_ok h
      cases hend
      obtain ⟨events, hextends, hjoined⟩ := exists_joined hw
      refine ⟨events, hextends, fun hharmless => ?_⟩
      obtain ⟨⟨t, ht⟩, hnot⟩ := hjoined fun e v he => hharmless.plain e v (by rwa [hvalue])
      refine ⟨.joined hvalue hmany ht ht.decode_eq, .inr ⟨w, rfl, fun q hq => ?_⟩⟩
      exact hnot q (hd.quote_eq hq).1 (hd.quote_eq hq).2 fun s hs => hfits s hs q hq
  | isDefault e | not o | missing =>
    rw [hvalue] at hfits
    exact hfits.elim

/-! ### Nodes of start tags -/

theorem HarmlessAttribute.fits (h : HarmlessAttribute events d)
    (hs : WorksOut events d (.markup s) ∨ d.boolean = true ∧ s = d.name) (hquotes : ∀ q ∈ d.quote, q ∉ s)
    (hbecomes : Becomes events d s t) : Fits d.quote t := by
  by_cases hinserted : d.translate = true ∨ d.quote = []
  · exact h.markup hinserted s t hs hbecomes
  · rw [not_or, Bool.not_eq_true] at hinserted
    rw [Becomes, if_pos (.inl hinserted.1)] at hbecomes
    exact ⟨hbecomes ▸ hquotes, fun hbare => absurd hbare hinserted.2⟩

theorem HarmlessAttribute.isAttributeName (h : HarmlessAttribute events d) (hd : d.Spellable) :
    IsAttributeName d.name := by
  cases htranslate : d.translate with
  | true => exact h.name htranslate
  | false => exact hd.name htranslate

/-- From one state to the other, a node of a start tag has been rendered to attributes that can be read. -/
def Renders (n : Node Compiled) (st st' : State) : Prop :=
  ∃ events w, Extends events w st st' ∧
    (Harmless events n → ∃ as, Carries events n as ∧ w = as.flatMap Spelling.text ∧ ∀ a ∈ as, a.Legible)

/-- From one state to the other, the attribute is left out, or it is written once. -/
def WrittenOnce (d : DynamicAttribute Compiled) (st st' : State) : Prop :=
  ∃ events as, Extends events (as.flatMap Spelling.text) st st' ∧ (as = [] ∨ ∃ w, as = [d.spelled w]) ∧
    (HarmlessAttribute events d → Carries events (.attr d) as ∧ ∀ a ∈ as, a.Legible)

theorem writtenOnce (hd : d.Spellable) (h : (renderAttribute frame d).run st = some (.ok (), st')) :
    WrittenOnce d st st' := by
  rw [renderAttribute] at h
  obtain ⟨v, st₁, hv, hrun⟩ := run_bind_eq_ok h
  obtain ⟨events₁, hextends₁, hworks⟩ := workedOut hd hv
  -- The attribute is left out, or it is written with one value or another.
  have hnothing : (HarmlessAttribute events₁ d → Carries events₁ (.attr d) []) → WrittenOnce d st st₁ :=
    fun hcarries => ⟨events₁, [], hextends₁, .inl rfl, fun hharmless => ⟨hcarries hharmless, by simp⟩⟩
  have hone : ∀ events w, Extends events (d.spelled w).text st₁ st' →
      (HarmlessAttribute (events ++ events₁) d →
        Carries (events ++ events₁) (.attr d) [d.spelled w] ∧ Fits d.quote w) → WrittenOnce d st st' := by
    intro events w hextends hcarries
    refine ⟨_, [d.spelled w], by simpa using hextends₁.trans hextends, .inr ⟨w, rfl⟩, fun hharmless => ?_⟩
    obtain ⟨hcarries, hfits⟩ := hcarries hharmless
    exact ⟨hcarries, by simpa using hd.legible (hharmless.isAttributeName hd) hfits⟩
  have hworks' : ∀ {events}, HarmlessAttribute (events ++ events₁) d → WorksOut (events ++ events₁) d v ∧
      ((∃ s, v.Shows false s) ∨ ∃ s, v = .markup s ∧ ∀ q ∈ d.quote, q ∉ s) := by
    intro events hharmless
    obtain ⟨hout, hshape⟩ := hworks (hharmless.mono (List.subset_append_right _ _))
    exact ⟨hout.mono (List.subset_append_right _ _), hshape⟩
  split at hrun
  · next hdefault =>
    obtain rfl : v = .default := by
      cases v <;> first | rfl | simp [Value.isDefault] at hdefault
    split at hrun
    · next s hs =>
      refine hone [] s ?_ fun hharmless => ⟨.kept (hworks' hharmless).1 hs, hd.written s hs⟩
      rw [DynamicAttribute.text_spelled]
      exact extends_write hrun
    · next hs =>
      cases hrun
      exact hnothing fun hharmless => .dropped (hworks hharmless).1 (.inl ⟨rfl, hs⟩)
  · split at hrun
    · next hdrops =>
      cases hrun
      exact hnothing fun hharmless => .dropped (hworks hharmless).1 (.inr hdrops)
    -- Looking up whether boolean attributes are written by presence changes nothing.
    · obtain ⟨b, st₂, hb, hrun⟩ := run_bind_eq_ok hrun
      cases hb
      split at hrun
      · next hboth =>
        have hboolean : d.boolean = true := (Bool.and_eq_true_iff.1 hboth).1
        rw [run_truth_bind] at hrun
        split at hrun
        · next htrue =>
          obtain ⟨events, w, hextends, hbecomes⟩ := exists_spelled hrun
          obtain ⟨t, ht, rfl⟩ := hbecomes true d.name (Value.shows_markup d.name)
          refine hone _ _ hextends fun hharmless => ?_
          have ht' := ht.mono (List.subset_append_left events events₁)
          have hquotes : ∀ q ∈ d.quote, q ∉ d.name :=
            fun q hq => (hharmless.isAttributeName hd).notMem (hd.quote_eq hq).1
          refine ⟨.present hboolean (hworks' hharmless).1 htrue ht', ?_⟩
          exact hharmless.fits (.inr ⟨hboolean, rfl⟩) hquotes ht'
        · next hfalse =>
          cases hrun
          exact hnothing fun hharmless => .absent hboolean (hworks hharmless).1 (by simpa using hfalse)
      · obtain ⟨events, w, hextends, hbecomes⟩ := exists_spelled hrun
        refine hone _ _ hextends fun hharmless => ?_
        have hsub : events ⊆ events ++ events₁ := List.subset_append_left _ _
        obtain ⟨hout, ⟨s, hs⟩ | ⟨s, rfl, hquotes⟩⟩ := hworks' hharmless
        · obtain ⟨t, ht, rfl⟩ := hbecomes false s hs
          refine ⟨.inserted hout hs (ht.mono hsub) (decode_escapeAttribute t _), ?_⟩
          exact fits_escapeAttribute hd.quote fun hbare => hharmless.bare hbare v s t hout hs (ht.mono hsub)
        · obtain ⟨t, ht, rfl⟩ := hbecomes true s (Value.shows_markup s)
          exact ⟨.markup hout (ht.mono hsub), hharmless.fits (.inl hout) hquotes (ht.mono hsub)⟩

/-- An entry of a mapping is left out, or it is written under its name, and then the others are. -/
theorem exists_of_writeEntries_cons {name : Bytes} {rest : Assoc Value}
    (h : (writeEntries exclude booleans ((name, v) :: rest)).run st = some (.ok (), st')) :
    ∃ as st₁, Extends [] (as.flatMap Spelling.text) st st₁ ∧
      (writeEntries exclude booleans rest).run st₁ = some (.ok (), st') ∧
      (as = [] ∨ exclude.contains (Text.lower name) = false ∧ ∃ w, as = [Markup.entrySpelling name w]) ∧
      (IsAttributeName name → (∃ s, v.Shows false s) → CarriesEntry exclude (name, v) as ∧ ∀ a ∈ as, a.Legible) := by
  unfold writeEntries at h
  dsimp only at h
  -- An entry is shown unless its name is taken or its value leaves it out.
  split at h
  · next hshown =>
    simp only [Bool.not_eq_true', Bool.or_eq_false_iff] at hshown
    split at h
    · next hboth =>
      have hboolean := (Bool.and_eq_true_iff.1 hboth).2
      rw [run_truth_bind] at h
      split at h
      · next htrue =>
        obtain ⟨_, st₁, hwrite, hrest⟩ := run_bind_eq_ok h
        refine ⟨[Markup.entrySpelling name name], st₁, ?_, hrest, .inr ⟨hshown.1, _, rfl⟩, fun hname _ => ?_⟩
        · simpa using extends_write hwrite
        · exact ⟨.present hboolean htrue, by simpa using Markup.legible_entrySpelling hname (hname.notMem rfl)⟩
      · next hfalse =>
        exact ⟨[], st, .refl st, h, .inl rfl, fun _ _ => ⟨.absent hboolean (by simpa using hfalse), by simp⟩⟩
    · rw [run_resolved_bind] at h
      obtain ⟨_, st₁, hwrite, hrest⟩ := run_bind_eq_ok h
      refine ⟨[Markup.entrySpelling name ((st.world.heap.resolve v).toAttribute [Byte.doubleQuote])], st₁, ?_, hrest,
        .inr ⟨hshown.1, _, rfl⟩, fun hname hplain => ?_⟩
      · simpa using extends_write hwrite
      · obtain ⟨s, hs⟩ := hplain
        rw [hs.toAttribute, if_neg Bool.false_ne_true]
        refine ⟨.inserted hs (decode_escapeAttribute s [Byte.doubleQuote]), ?_⟩
        simpa using Markup.legible_entrySpelling hname (notMem_escapeAttribute rfl s)
  · next hshown =>
    rw [Bool.not_eq_true', Bool.not_eq_false, Bool.or_eq_true] at hshown
    refine ⟨[], st, .refl st, h, .inl rfl, fun _ _ => ⟨hshown.elim (fun hexcluded => .excluded ?_) .dropped, by simp⟩⟩
    simpa using hexcluded

/-- The names under which entries of a mapping are written are some of its keys, in their order. -/
structure EntriesWritten (exclude : List Bytes) (entries : Assoc Value) (as : List Spelling) : Prop where
  names : (as.map (·.name)).Sublist ((entries.map (·.1)).filter fun name => !exclude.contains (Text.lower name))
  spelled : ∀ a ∈ as, ∃ w, a = Markup.entrySpelling a.name w

theorem exists_of_writeEntries {entries : Assoc Value}
    (h : (writeEntries exclude booleans entries).run st = some (.ok (), st')) :
    ∃ segments : List (List Spelling), Extends [] (segments.flatten.flatMap Spelling.text) st st' ∧
      EntriesWritten exclude entries segments.flatten ∧
      ((∀ entry ∈ entries, IsAttributeName entry.1 ∧ ∃ s, entry.2.Shows false s) →
        List.Forall₂ (CarriesEntry exclude) entries segments ∧ ∀ a ∈ segments.flatten, a.Legible) := by
  induction entries generalizing st with
  | nil =>
    cases h
    exact ⟨[], .refl _, ⟨List.Sublist.refl _, by simp⟩, fun _ => ⟨.nil, by simp⟩⟩
  | cons entry rest ih =>
    obtain ⟨as, st₁, hextends₁, hrest, has, hentry⟩ := exists_of_writeEntries_cons h
    obtain ⟨segments, hextends₂, hwritten, hentries⟩ := ih hrest
    refine ⟨as :: segments, by simpa using hextends₁.trans hextends₂, ⟨?_, ?_⟩, fun hharmless => ?_⟩
    · rw [List.flatten_cons, List.map_append, List.map_cons, List.filter_cons]
      rcases has with rfl | ⟨hshown, w, rfl⟩
      · split
        · exact hwritten.names.cons _
        · exact hwritten.names
      · rw [if_pos (by rw [hshown]; rfl)]
        exact hwritten.names.cons_cons _
    · rw [List.flatten_cons, List.forall_mem_append]
      refine ⟨fun a ha => ?_, hwritten.spelled⟩
      rcases has with rfl | ⟨_, w, rfl⟩
      · cases ha
      · rw [List.mem_singleton.1 ha]
        exact ⟨w, rfl⟩
    · obtain ⟨⟨hname, hplain⟩, hharmless⟩ := List.forall_mem_cons.1 hharmless
      obtain ⟨hcarries, hlegible⟩ := hentry hname hplain
      obtain ⟨hsegments, hlegibles⟩ := hentries hharmless
      rw [List.flatten_cons, List.forall_mem_append]
      exact ⟨.cons hcarries hsegments, hlegible, hlegibles⟩

theorem exists_of_renderAttributeMap (h : (renderAttributeMap frame e exclude).run st = some (.ok (), st')) :
    ∃ v st₁ events booleans entries, Extends events [] st st₁ ∧ Gave events e v ∧ mapEntries st₁.world v = .ok entries ∧
      (writeEntries exclude booleans entries).run st₁ = some (.ok (), st') := by
  rw [renderAttributeMap] at h
  obtain ⟨v, st₁, hv, hrun⟩ := run_bind_eq_ok h
  obtain ⟨events, hextends, hgave⟩ := exists_gave hv
  rw [run_get_bind] at hrun
  split at hrun
  · next entries hentries =>
    obtain ⟨b, st₂, hb, hrun⟩ := run_bind_eq_ok hrun
    cases hb
    exact ⟨v, st₁, events, _, entries, hextends, hgave, hentries, hrun⟩
  · next f hf =>
    rw [run_failAt e (unlocated_mapEntries _ _ f hf)] at hrun
    cases hrun

theorem renders_attributeMap (h : (renderAttributeMap frame e exclude).run st = some (.ok (), st')) :
    Renders (.attributeMap e exclude) st st' := by
  obtain ⟨v, st₁, events, _, entries, hextends₁, hgave, hentries, hrun⟩ := exists_of_renderAttributeMap h
  obtain ⟨segments, hextends₂, _, hcarries⟩ := exists_of_writeEntries hrun
  refine ⟨_, _, hextends₁.trans hextends₂, fun hharmless => ?_⟩
  obtain ⟨hsegments, hlegible⟩ := hcarries (hharmless v _ entries hgave hentries)
  exact ⟨_, .entries hgave hentries hsegments, rfl, hlegible⟩

theorem renders_node (call : Continuation) (hn : n.Spellable)
    (h : (node call frame n).run st = some (.ok (), st')) : Renders n st st' := by
  unfold node at h
  cases n with
  | text s =>
    obtain ⟨a, ha, rfl⟩ := hn
    exact ⟨[], _, extends_write h, fun _ => ⟨[a], .literal a, by simp, by simpa using ha⟩⟩
  | attr d =>
    obtain ⟨events, as, hextends, _, hcarries⟩ := writtenOnce hn h
    exact ⟨events, _, hextends, fun hharmless => ⟨as, (hcarries hharmless).1, rfl, (hcarries hharmless).2⟩⟩
  | attributeMap e exclude => exact renders_attributeMap h
  | _ => exact hn.elim

theorem exists_segments (call : Continuation) {ns : List (Node Compiled)} (hns : ∀ n ∈ ns, n.Spellable)
    (h : (nodeList call frame ns).run st = some (.ok (), st')) :
    ∃ events w, Extends events w st st' ∧
      ((∀ n ∈ ns, Harmless events n) →
        ∃ segments, List.Forall₂ (Carries events) ns segments ∧ w = segments.flatten.flatMap Spelling.text ∧
          ∀ a ∈ segments.flatten, a.Legible) := by
  induction ns generalizing st with
  | nil =>
    rw [nodeList] at h
    cases h
    exact ⟨[], [], .refl _, fun _ => ⟨[], .nil, rfl, by simp⟩⟩
  | cons n ns ih =>
    rw [nodeList] at h
    obtain ⟨_, st₁, hn, hrest⟩ := run_bind_eq_ok h
    obtain ⟨hspellable, hns⟩ := List.forall_mem_cons.1 hns
    obtain ⟨events₁, w₁, hextends₁, hcarries₁⟩ := renders_node call hspellable hn
    obtain ⟨events₂, w₂, hextends₂, hcarries₂⟩ := ih hns hrest
    refine ⟨_, _, hextends₁.trans hextends₂, fun hharmless => ?_⟩
    obtain ⟨hharmless₁, hharmless₂⟩ := List.forall_mem_cons.1 hharmless
    have hsub₁ : events₁ ⊆ events₂ ++ events₁ := List.subset_append_right _ _
    have hsub₂ : events₂ ⊆ events₂ ++ events₁ := List.subset_append_left _ _
    obtain ⟨as, has, rfl, hlegible⟩ := hcarries₁ (hharmless₁.mono hsub₁)
    obtain ⟨segments, hsegments, rfl, hlegibles⟩ := hcarries₂ fun n hn => (hharmless₂ n hn).mono hsub₂
    refine ⟨as :: segments, .cons (has.mono hsub₁) (hsegments.imp fun _ _ h => h.mono hsub₂), by simp, ?_⟩
    rw [List.flatten_cons, List.forall_mem_append]
    exact ⟨hlegible, hlegibles⟩

end Steps

/-- A rendered start tag is read again as the one it was rendered from: with its name, its ending, and its attributes in
order, with the inserted values. -/
theorem start_tag_read_back {r : Expression.Registry} {filename source : Bytes} {settings : Nat} {p : Program}
    (hp : compileTemplate r filename source settings = .ok p) {lead name tail : Bytes}
    {attributes : List (Node Compiled)}
    (hn : .startTag lead name attributes tail ∈ p.main.all ∨
      ∃ m ∈ p.macros, .startTag lead name attributes tail ∈ m.2.all)
    (call : Continuation) (frame : Frame) {st st' : State}
    (hrun : (node call frame (.startTag lead name attributes tail)).run st = some (.ok (), st')) :
    (Node.startTag lead name attributes tail).Originates source filename ∧
      ∃ events w, st'.events = events ++ st.events ∧ st'.out.text = st.out.text ++ (lead ++ name ++ w ++ tail) ∧
        ((∀ n ∈ attributes, Harmless events n) →
          (w.getLast? = some Byte.slash → tail.head? ≠ some Byte.greater) →
          ∀ filename', ∃ tok tag segments, Markup.tokenize (lead ++ name ++ w ++ tail) filename' = [tok] ∧
            (tok.kind = .startTag ∨ tok.kind = .emptyTag) ∧ Markup.Tag.ofToken? tok = some tag ∧
            tag.name.value = name ∧ tag.ending = tail ∧ List.Forall₂ (Carries events) attributes segments ∧
            tag.attributes.map RawAttribute.spelling = segments.flatten) := by
  have horigin := originates_of_compileTemplate hp hn
  have hspellable := horigin.spellable
  refine ⟨horigin, ?_⟩
  obtain ⟨tree, head, _, _, hparse, hhead, _, hlead, rfl, htail, _⟩ := horigin
  obtain ⟨hopening, hname, hending, _⟩ := Markup.legible_of_mem_elementHeads hparse hhead
  -- The tag is put together from a name, spellings and an ending that are all such as are read.
  obtain rfl : lead = utf8 "<" := hlead.trans hopening
  have hending : Markup.IsEnding tail := by
    rcases htail with rfl | rfl
    · exact hending
    · exact ⟨[], by simp, .inl rfl⟩
  rw [node] at hrun
  obtain ⟨_, st₁, hstart, hrun⟩ := run_bind_eq_ok hrun
  obtain ⟨_, st₂, hattributes, hend⟩ := run_bind_eq_ok hrun
  obtain ⟨events, w, hextends, hcarries⟩ := exists_segments call hspellable hattributes
  have hwhole := ((extends_write hstart).trans hextends).trans (extends_write hend)
  refine ⟨events, w, by simpa using hwhole.happened, hwhole.written, fun hharmless hslash filename' => ?_⟩
  obtain ⟨segments, hsegments, rfl, hlegible⟩ := hcarries hharmless
  obtain ⟨tok, tag, htokens, hkind, htag, htagname, hspelled, htagending⟩ :=
    Markup.tokenize_written hname hlegible hending hslash filename'
  exact ⟨tok, tag, segments, htokens, hkind, htag, htagname, htagending, hsegments, hspelled⟩

def isQuoted : Node Compiled → Bool
  | .attr d => !d.translate && !d.quote.isEmpty
  | _ => true

/-! Start tags and the values that are given for them, as computed. -/

def isStartTag (told : Bytes → Bytes → List (Node Compiled) → Bytes → Bool) : Node Compiled → Bool
  | .startTag lead name attributes tail => told lead name attributes tail
  | _ => false

theorem exists_startTag {r : Expression.Registry} {source : Bytes}
    {told : Bytes → Bytes → List (Node Compiled) → Bytes → Bool}
    (h : ((compileTemplate r [] source 0).toOption.any fun p => p.main.all.any (isStartTag told)) = true) :
    ∃ p lead name attributes tail, compileTemplate r [] source 0 = .ok p ∧
      .startTag lead name attributes tail ∈ p.main.all ∧ told lead name attributes tail = true := by
  obtain ⟨p, hp, h⟩ := (Option.any_eq_true _ _).1 h
  obtain ⟨n, hn, h⟩ := List.any_eq_true.1 h
  unfold isStartTag at h
  split at h
  · exact ⟨p, _, _, _, _, eq_ok_of_toOption hp, hn, h⟩
  · cases h

/-- A start tag that is rendered to a good end. -/
def rendersTo (st : State) (good : List (Node Compiled) → Bytes → State → Bool) : Node Compiled → Bool :=
  isStartTag fun lead name attributes tail =>
    ((node (toDepth 0) default (.startTag lead name attributes tail)).run st).any fun q =>
      q.1.toOption.isSome && good attributes tail q.2

theorem exists_run_startTag (source : Bytes) (st : State) (good : List (Node Compiled) → Bytes → State → Bool)
    (h : ((compileTemplate (Expression.Registry.initial (utf8 "path") []) [] source 0).toOption.any fun p =>
      p.main.all.any (rendersTo st good)) = true) :
    ∃ p lead name attributes tail st',
      compileTemplate (Expression.Registry.initial (utf8 "path") []) [] source 0 = .ok p ∧
      .startTag lead name attributes tail ∈ p.main.all ∧
      (node (toDepth 0) default (.startTag lead name attributes tail)).run st = some (.ok (), st') ∧
      good attributes tail st' = true := by
  obtain ⟨p, lead, name, attributes, tail, hp, hn, h⟩ := exists_startTag h
  obtain ⟨st', hrun, hgood⟩ := exists_ok_of_any _ st _ h
  exact ⟨p, lead, name, attributes, tail, st', hp, hn, hrun, hgood⟩

/-- A value given by an expression is a text, or a text under the key for its number. -/
def gaveKeyed (key : Nat → Bytes) : Event → Bool
  | .translated _ _ => true
  | .evaluated _ (.ok (.text _)) => true
  | .evaluated e (.ok (.map .text .any [(.text k, .text _)])) => k == key e.id
  | _ => false

theorem Gave.eq_of_keyed {key : Nat → Bytes} {events : List Event} {e : Compiled} {v : Value} (h : Gave events e v)
    (hkeyed : events.all (gaveKeyed key) = true) :
    (∃ s, v = .text s) ∨ ∃ s, v = .map .text .any [(.text (key e.id), .text s)] := by
  obtain ⟨event, hmem, hgives⟩ := h
  have hevent := List.all_eq_true.1 hkeyed event hmem
  cases hgives with
  | evaluated =>
    unfold gaveKeyed at hevent
    split at hevent
    · next heq => cases heq
    · next heq =>
      cases heq
      exact .inl ⟨_, rfl⟩
    · next heq =>
      cases heq
      exact .inr ⟨_, by rw [beq_iff_eq.1 hevent]⟩
    · cases hevent
  | recalled => cases hevent
  | delivered => cases hevent

theorem start_tag_read_back_hostile_values :
    let source := utf8 "<a title='b ${x}' href=\"u\" tal:attributes=\"href y; m\" alt=z >t</a>"
    let st : State := { world := {}, vars := [(utf8 "x", .text (utf8 "'\" onclick='e")),
      (utf8 "y", .text (utf8 "\"><script>&quot;")),
      (utf8 "m", .map .text .any [(.text (utf8 "data-k"), .text (utf8 "a \"b\" />"))])] }
    ∃ p lead name attributes tail st' events w tok tag segments,
      compileTemplate (Expression.Registry.initial (utf8 "path") []) [] source 0 = .ok p ∧
      .startTag lead name attributes tail ∈ p.main.all ∧
      (node (toDepth 0) default (.startTag lead name attributes tail)).run st = some (.ok (), st') ∧
      st'.out.text = utf8 ("<a title='b &#39;\" onclick=&#39;e' href=\"&quot;&gt;&lt;script&gt;&amp;quot;\"" ++
        " alt=z data-k=\"a &quot;b&quot; /&gt;\" >") ∧
      (∀ n ∈ attributes, Harmless events n) ∧ (w.getLast? = some Byte.slash → tail.head? ≠ some Byte.greater) ∧
      Markup.tokenize (lead ++ name ++ w ++ tail) [] = [tok] ∧ Markup.Tag.ofToken? tok = some tag ∧
      List.Forall₂ (Carries events) attributes segments ∧
      tag.attributes.map RawAttribute.spelling = segments.flatten := by
  intro source st
  obtain ⟨p, lead, name, attributes, tail, st', hcompile, hn, hrun, hends⟩ := exists_run_startTag source st
    (fun attributes tail st' => tail == utf8 " >" && attributes.all isQuoted &&
      st'.events.all (gaveKeyed fun _ => utf8 "data-k") && st'.out.text == utf8
        ("<a title='b &#39;\" onclick=&#39;e' href=\"&quot;&gt;&lt;script&gt;&amp;quot;\"" ++
          " alt=z data-k=\"a &quot;b&quot; /&gt;\" >")) (by decide +kernel)
  simp only [Bool.and_eq_true, beq_iff_eq] at hends
  obtain ⟨⟨⟨htail, hquoted⟩, hkeyed⟩, hout⟩ := hends
  obtain ⟨_, events, w, hevents, _, hread⟩ := start_tag_read_back hcompile (.inl hn) (toDepth 0) default hrun
  obtain rfl : st'.events = events := by simpa [st] using hevents
  have hkey : IsAttributeName (utf8 "data-k") := ⟨by decide, by decide +kernel, by decide +kernel⟩
  have hharmless : ∀ n ∈ attributes, Harmless st'.events n := by
    intro n hn
    have hnode := List.all_eq_true.1 hquoted n hn
    cases n with
    | attr d =>
      simp only [isQuoted, Bool.and_eq_true, Bool.not_eq_true', List.isEmpty_eq_false_iff] at hnode
      refine ⟨fun e v _ hv => ?_, fun hbare => absurd hbare hnode.2, ?_, ?_⟩
      · rcases hv.eq_of_keyed hkeyed with ⟨s, rfl⟩ | ⟨s, rfl⟩
        · exact ⟨s, Value.shows_text s⟩
        · exact ⟨(Value.map .text .any [(.text (utf8 "data-k"), .text s)]).toText, fun _ => ⟨rfl, rfl⟩⟩
      · simp [hnode.1, hnode.2]
      · simp [hnode.1]
    | attributeMap e exclude =>
      intro v world entries hv hentries
      rcases hv.eq_of_keyed hkeyed with ⟨s, rfl⟩ | ⟨s, rfl⟩
      · cases hentries
      · obtain rfl : entries = [(utf8 "data-k", .text s)] := by
          cases hentries
          simp [Assoc.sorted, Value.ofKey, Value.toText]
        exact List.forall_mem_singleton.2 ⟨hkey, s, Value.shows_text s⟩
    | _ => trivial
  have hslash : w.getLast? = some Byte.slash → tail.head? ≠ some Byte.greater := by
    intro _
    rw [htail]
    decide
  obtain ⟨tok, tag, segments, htokens, _, htag, _, _, hcarries, hspelled⟩ := hread hharmless hslash []
  exact ⟨p, lead, name, attributes, tail, st', _, w, tok, tag, segments, hcompile, hn, hrun, hout, hharmless,
    hslash, htokens, htag, hcarries, hspelled⟩

/-- Without quotes, a value ends at its first blank, and so does the key of a mapping. A boolean attribute is written by
presence, a translated text may bring in an attribute, and a text before a value may make an entity of it. -/
theorem start_tag_changed_by_values :
    let registry := Expression.Registry.initial (utf8 "path") []
    let render (source : String) (vars : Vars) (hook : Option Hook) : Option Bytes :=
      (compileTemplate registry [] (utf8 source) 0).toOption.bind fun p =>
        ((renderEntry (toDepth 1) 0 0 [] []).run { world := { programs := [p], settings := [{ hook }] }, vars }).map
          (·.2.out.text)
    let read (page : Option Bytes) : Option (List (Bytes × Bytes)) :=
      page.bind fun text => (Markup.tokenize text []).head?.bind fun tok =>
        (Markup.Tag.ofToken? tok).map fun tag => tag.attributes.map fun a => (a.name.value, a.value.value)
    let catalog := Catalog.add {} [] [] (utf8 "b v") (utf8 "\" id=\"e")
    read (render "<a href=${x}>t</a>" [(utf8 "x", .text (utf8 "a b"))] none) =
        some [(utf8 "href", utf8 "a"), (utf8 "b", [])] ∧
      read (render "<a tal:attributes=\"m\">t</a>"
          [(utf8 "m", .map .text .any [(.text (utf8 "a b"), .text (utf8 "x"))])] none) =
        some [(utf8 "a", []), (utf8 "b", utf8 "x")] ∧
      read (render "<input checked=\"${x}\">" [(utf8 "x", .text (utf8 "yes"))] none) =
        some [(utf8 "checked", utf8 "checked")] ∧
      read (render "<a title=\"b ${x}\" i18n:attributes=\"title\">t</a>" [(utf8 "x", .text (utf8 "v"))]
          (some catalog.hook)) =
        some [(utf8 "title", []), (utf8 "id", utf8 "e")] ∧
      (read (render "<a title=\"&am${x}\">t</a>" [(utf8 "x", .text (utf8 "p;"))] none)).map
          (·.map fun a => decode a.2) =
        some [utf8 "&"] := by
  refine ⟨?_, ?_, ?_, ?_, ?_⟩ <;> decide +kernel

end Render

end PageTemplate
