import PageTemplate.Proofs.Markup.Placement
import PageTemplate.Proofs.Markup.Spelling

/-!
The tokens of a source are a partition of it, each holding the bytes at its place. A token goes on over a `<` only if it
is markup that has an end of its own, or a tag in which the `<` stands between quotes. The main statement is
`tokens_partition_source`.
-/

namespace PageTemplate.Markup

variable {s : Bytes} {kind : TokenKind} {n : Nat}
variable {tok : Token}

theorem tiles_tokensFrom (source filename : Bytes) (pos : Nat) (s : Bytes) :
    Tiles Token.pos Token.stop pos (tokensFrom source filename pos s) (pos + s.length) := by
  fun_induction tokensFrom source filename pos s with
  | case1 pos => rfl
  | case2 pos c s l value ih =>
    have hlength : pos + value.length + (s.drop l.2).length = pos + (c :: s).length := by
      simp only [value, List.length_cons, List.length_take, List.length_drop]
      omega
    rw [hlength] at ih
    exact ⟨rfl, by simp [Token.stop, value], ih⟩

/-- A stretch of a tag up to the end of a value between quotes. -/
structure QuotedStretch where
  /-- What comes before the quotes. -/
  lead : Bytes
  quote : UInt8
  value : Bytes

namespace QuotedStretch

def text (p : QuotedStretch) : Bytes := p.lead ++ p.quote :: (p.value ++ [p.quote])

/-- The quotes open after an equals sign, perhaps behind blanks, and close at the first of their kind. -/
structure IsValue (p : QuotedStretch) : Prop where
  equals : lastSolid Byte.nul p.lead = Byte.equals
  quote : Byte.isQuote p.quote = true
  value : p.quote ∉ p.value

end QuotedStretch

/-- Each `<` in the text stands in a value between quotes. -/
def LessInQuotes (s : Bytes) : Prop :=
  ∃ (stretches : List QuotedStretch) (rest : Bytes), s = stretches.flatMap QuotedStretch.text ++ rest ∧
    (∀ p ∈ stretches, p.IsValue ∧ Byte.less ∉ p.lead) ∧ Byte.less ∉ rest

theorem LessInQuotes.of_not_mem (h : Byte.less ∉ s) : LessInQuotes s := ⟨[], s, rfl, by simp, h⟩

theorem LessInQuotes.quoted {p : QuotedStretch} (hp : p.IsValue) (hlead : Byte.less ∉ p.lead) (h : LessInQuotes s) :
    LessInQuotes (p.text ++ s) := by
  obtain ⟨stretches, rest, rfl, hstretches, hrest⟩ := h
  exact ⟨p :: stretches, rest, by simp, List.forall_mem_cons.2 ⟨⟨hp, hlead⟩, hstretches⟩, hrest⟩

theorem exists_of_tagRest_some {q last : UInt8} (h : tagRest (some q) last s = some (kind, n)) :
    ∃ value s' n', s = value ++ q :: s' ∧ q ∉ value ∧ tagRest none q s' = some (kind, n') ∧
      n = n' + (value.length + 1) := by
  induction s generalizing n with
  | nil => simp [tagRest] at h
  | cons c s ih =>
    obtain ⟨⟨k, m⟩, hrest, he⟩ := Option.map_eq_some_iff.1 h
    cases he
    split at hrest
    · next hc => exact ⟨[], s, m, by rw [hc, List.nil_append], by simp, hrest, rfl⟩
    · next hc =>
      obtain ⟨value, s', n', rfl, hvalue, hrest, rfl⟩ := ih hrest
      exact ⟨c :: value, s', n', rfl, by simp [Ne.symm hc, hvalue], hrest, rfl⟩

theorem lastSolid_append_singleton (last : UInt8) (w : Bytes) (b : UInt8) :
    lastSolid last (w ++ [b]) = if Byte.isBlank b then lastSolid last w else b := lastSolid_append last w [b]

/-- In a tag, each `<` stands in a quoted value. Before the scan, `w` has been read since the last quotes. -/
theorem lessInQuotes_of_tagRest {last : UInt8} (h : tagRest none last s = some (kind, n)) {w : Bytes}
    (hw : Byte.less ∉ w) (hlast : last = Byte.equals → lastSolid Byte.nul w = Byte.equals) :
    LessInQuotes (w ++ s.take n) := by
  -- A value between quotes is taken in one step, so the induction is on the length.
  induction hlength : s.length using Nat.strong_induction_on generalizing last s kind n w with
  | _ length ih =>
    cases s with
    | nil => simp [tagRest] at h
    | cons c s =>
      have hshorter : s.length < length := by simp [← hlength]
      simp only [tagRest] at h
      split at h
      · cases h
      next hstop =>
      simp only [Bool.or_eq_true, decide_eq_true_eq, not_or] at hstop
      have hread : Byte.less ∉ w ++ [c] := by simp [hw, Ne.symm hstop.2]
      split at h
      · cases h
        exact .of_not_mem hread
      split at h
      · next hquote =>
        simp only [Bool.and_eq_true, decide_eq_true_eq] at hquote
        obtain ⟨⟨k, m⟩, hrest, he⟩ := Option.map_eq_some_iff.1 h
        cases he
        obtain ⟨value, s', n', rfl, hvalue, hafter, hm⟩ := exists_of_tagRest_some hrest
        have hshort : s'.length < length := by
          simp only [List.length_append, List.length_cons] at hshorter
          omega
        have hnext : LessInQuotes ([] ++ s'.take n') :=
          ih _ hshort hafter (by simp) (fun hc => absurd hc (ne_of_class hquote.1 rfl)) rfl
        have htext : w ++ (c :: (value ++ c :: s')).take (m + 1) =
            QuotedStretch.text ⟨w, c, value⟩ ++ s'.take n' := by
          have hm : m = value.length + (n' + 1) := by omega
          rw [hm, List.take_succ_cons, List.take_length_add_append, List.take_succ_cons]
          simp [QuotedStretch.text]
        rw [htext]
        exact .quoted ⟨hlast hquote.2, hquote.1, hvalue⟩ hw hnext
      · obtain ⟨⟨k, m⟩, hrest, he⟩ := Option.map_eq_some_iff.1 h
        cases he
        have htext : w ++ (c :: s).take (m + 1) = (w ++ [c]) ++ s.take m := by simp
        rw [htext]
        refine ih _ hshorter hrest hread ?_ rfl
        rw [lastSolid_append_singleton]
        split
        · exact hlast
        · exact id

/-! ### Tokens of each kind -/

theorem exists_lead_of_dropWhile {rest : Bytes} (h : (s.dropWhile isNameByte).dropWhile Byte.isBlank = rest) :
    ∃ lead, s = lead ++ rest ∧ Byte.less ∉ lead := by
  refine ⟨s.takeWhile isNameByte ++ (s.dropWhile isNameByte).takeWhile Byte.isBlank, ?_, ?_⟩
  · rw [← h, List.append_assoc, List.takeWhile_append_dropWhile, List.takeWhile_append_dropWhile]
  · rw [List.mem_append, not_or]
    exact ⟨fun hmem => absurd (List.mem_takeWhile_imp hmem) (by decide),
      fun hmem => absurd (List.mem_takeWhile_imp hmem) (by decide)⟩

theorem less_not_mem_endTag (h : endTagRest s = some n) : Byte.less ∉ s.take n := by
  unfold endTagRest at h
  split at h
  · next slash first s =>
    split at h
    · next hstart =>
      simp only [Bool.and_eq_true, decide_eq_true_eq] at hstart
      dsimp only at h
      split at h
      · next c rest hrest =>
        split at h
        · next hc =>
          obtain ⟨lead, hs, hlead⟩ := exists_lead_of_dropWhile hrest
          have hn : n = lead.length + 1 + 2 := by
            rw [← Option.some.inj h, hrest, congrArg List.length hs, List.length_append]
            omega
          have hfirst : Byte.less ≠ first := (ne_of_class hstart.2 rfl).symm
          rw [hn, List.take_succ_cons, List.take_succ_cons, hs, List.take_length_add_append, hstart.1, hc]
          have hplain : ¬ Byte.less = Byte.slash ∧ ¬ Byte.less = Byte.greater := by decide
          simpa [hfirst, hlead] using hplain
        · cases h
      · cases h
    · cases h
  · cases h

theorem less_not_mem_textRest (s : Bytes) : Byte.less ∉ s.take (textRest s) := by
  have htake : s.take (textRest s) = s.takeWhile (· ≠ Byte.less) :=
    (List.prefix_iff_eq_take.1 (List.takeWhile_prefix _)).symm
  rw [htake]
  intro hmem
  simpa using List.mem_takeWhile_imp hmem

/-- After its first byte, a lexeme holds a `<` only in markup with its own end, or in the quotes of a tag. -/
theorem less_of_lexeme {c : UInt8} (h : Byte.less ∈ s.take (lexeme c s).2) :
    (lexeme c s).1 ∈ [.comment, .cdata, .declaration, .processingInstruction] ∨
      ((lexeme c s).1 = .startTag ∨ (lexeme c s).1 = .emptyTag) ∧ LessInQuotes (s.take (lexeme c s).2) := by
  unfold lexeme at h ⊢
  split at h
  · next hc =>
    rw [if_pos hc]
    cases hmarkup : markupRest s with
    | none =>
      rw [hmarkup] at h
      exact absurd h (less_not_mem_textRest s)
    | some r =>
      rw [hmarkup, Option.getD_some] at h
      rw [Option.getD_some]
      rcases cases_of_markupRest hmarkup with hkind | ⟨_, hend⟩ | ⟨_, htag⟩
      · exact .inl hkind
      · exact absurd h (less_not_mem_endTag hend)
      · refine .inr ⟨kind_of_tagRest htag, ?_⟩
        exact lessInQuotes_of_tagRest htag List.not_mem_nil (fun h => absurd h (by decide))
  · exact absurd h (less_not_mem_textRest s)

/-- What a tag has outside of quotes, its first byte apart. -/
def Tag.outside (t : Tag) : Bytes :=
  t.name.value ++ t.attributes.flatMap (fun a => a.spelling.outside) ++ t.ending

theorem Tag.less_not_mem_outside {source filename : Bytes} {tag : Tag}
    (hmem : tok ∈ tokenize source filename) (hkind : tok.kind ≠ .endTag) (htag : Tag.ofToken? tok = some tag) :
    Byte.less ∉ tag.outside := by
  obtain ⟨_, hname, ⟨blanks, hblanks, hending⟩, hlegible⟩ := legible_of_mem_tokenize hmem hkind htag
  simp only [Tag.outside, List.mem_append, List.mem_flatMap, not_or, not_exists, not_and]
  refine ⟨⟨fun h => absurd (hname.byte _ h) (by decide), fun a ha h => ((hlegible a ha).outside _ h).2 rfl⟩, fun h => ?_⟩
  have hblank : Byte.less ∉ blanks := fun h => absurd (hblanks _ h) (by decide)
  rcases hending with hending | hending
  · rw [hending, List.mem_append] at h
    exact absurd (h.resolve_left hblank) (by decide)
  · rw [hending, List.mem_append] at h
    exact absurd (h.resolve_left hblank) (by decide)

/-- The tokens of a source are not empty, lie end to end, cover the source, and hold the bytes at their places. A token
with a `<` after its first byte is a comment, character data, a declaration, a processing instruction, or a tag. In a
tag, every such `<` stands in a value between quotes, in those of its attributes if the tag is well formed. -/
theorem tokens_partition_source (source filename : Bytes) :
    Tiles Token.pos Token.stop 0 (tokenize source filename) source.length ∧
      (tokenize source filename).flatMap (·.value) = source ∧
      ∀ tok ∈ tokenize source filename, tok.value = (source.drop tok.pos).take (tok.stop - tok.pos) ∧
        (Byte.less ∈ tok.value.tail →
          tok.kind ∈ [.comment, .cdata, .declaration, .processingInstruction] ∨
            (tok.kind = .startTag ∨ tok.kind = .emptyTag) ∧ LessInQuotes tok.value.tail ∧
              ∀ tag, Tag.ofToken? tok = some tag → tag.text = tok.value ∧ Byte.less ∉ tag.outside) := by
  have htiles := tiles_tokensFrom source filename 0 source
  rw [Nat.zero_add] at htiles
  refine ⟨htiles, flatMap_value_tokenize source filename, fun tok hmem => ⟨?_, ?_⟩⟩
  · rw [Token.stop, Nat.add_sub_cancel_left]
    exact List.prefix_iff_eq_take.1 (placed_of_mem_tokenize hmem).isPrefix
  intro hless
  obtain ⟨c, rest, hkind, hvalue⟩ := exists_lexeme_of_mem_tokensFrom hmem
  rw [hvalue, List.tail_cons] at hless ⊢
  rw [hkind]
  refine (less_of_lexeme hless).imp_right fun htag => ⟨htag.1, htag.2, fun tag hread => ?_⟩
  rw [← hvalue]
  have hnotEnd : tok.kind ≠ .endTag := by
    rw [hkind]
    rcases htag.1 with h | h <;> simp [h]
  exact ⟨Tag.text_of_mem_tokenize hmem hread, Tag.less_not_mem_outside hmem hnotEnd hread⟩

theorem tokens_partition_source_quoted :
    let source := utf8 "a <i t='<' /><!--<--> < b"
    let tok : Token := ⟨.emptyTag, utf8 "<i t='<' />", 2, source, []⟩
    tok ∈ tokenize source [] ∧ Byte.less ∈ tok.value.tail ∧ LessInQuotes tok.value.tail ∧
      Tiles Token.pos Token.stop 0 (tokenize source []) 25 := by
  intro source tok
  have hmem : tok ∈ tokenize source [] := by decide +kernel
  have hless : Byte.less ∈ tok.value.tail := by decide
  obtain ⟨htiles, _, htokens⟩ := tokens_partition_source source []
  obtain ⟨_, hquotes, _⟩ := ((htokens tok hmem).2 hless).resolve_left (by decide)
  exact ⟨hmem, hless, hquotes, htiles⟩

end PageTemplate.Markup
