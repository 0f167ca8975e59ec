import Mathlib.Data.List.TakeWhile
import PageTemplate.Markup.Tag
import PageTemplate.Markup.Token.Lexer
import PageTemplate.Proofs.Bytes

/-!
Tokens and tags keep every byte of the source. The values of the tokens
concatenate to the source, a tag token begins with the bytes that open its
kind of tag, and writing the parts of a tag one after another gives the value
of its token back.
-/

namespace PageTemplate.Markup

variable {s : Bytes} {tok : Token} {i : Nat}
variable {opening : Bytes} {tag : Tag}

theorem flatMap_value_tokensFrom (source filename : Bytes) (pos : Nat) (s : Bytes) :
    (tokensFrom source filename pos s).flatMap (·.value) = s := by
  fun_induction tokensFrom source filename pos s with
  | case1 pos => rfl
  | case2 pos c s l value ih =>
    rw [List.flatMap_cons, ih]
    simp only [value, List.cons_append, List.take_append_drop]

theorem flatMap_value_tokenize (source filename : Bytes) :
    (tokenize source filename).flatMap (·.value) = source :=
  flatMap_value_tokensFrom source filename 0 source

theorem kind_of_tagRest {quote : Option UInt8} {last : UInt8} {kind : TokenKind} {n : Nat}
    (h : tagRest quote last s = some (kind, n)) : kind = .startTag ∨ kind = .emptyTag := by
  induction s generalizing quote last n with
  | nil => simp [tagRest] at h
  | cons c s ih =>
    cases quote with
    | some q =>
      obtain ⟨⟨k, m⟩, hr, he⟩ := Option.map_eq_some_iff.1 h
      cases he
      split at hr
      · exact ih hr
      · exact ih hr
    | none =>
      simp only [tagRest] at h
      split at h
      · cases h
      · split at h
        · cases h
          split <;> simp
        · split at h <;>
            (obtain ⟨⟨k, m⟩, hr, he⟩ := Option.map_eq_some_iff.1 h
             cases he
             exact ih hr)

/-- What markup there is: markup that runs to an end of its own, an end tag, or a start tag. -/
theorem cases_of_markupRest {kind : TokenKind} {n : Nat} (h : markupRest s = some (kind, n)) :
    kind ∈ [.comment, .cdata, .declaration, .processingInstruction] ∨
      (kind = .endTag ∧ endTagRest s = some n) ∨
        (∃ b s', s = b :: s' ∧ isNameStart b = true) ∧ tagRest none Byte.nul s = some (kind, n) := by
  have hkind : ∀ {kind' : TokenKind} {o : Option Nat}, o.map (fun n => (kind', n)) = some (kind, n) →
      kind = kind' ∧ o = some n := by
    intro kind' o ho
    obtain ⟨n, hn, he⟩ := Option.map_eq_some_iff.1 ho
    cases he
    exact ⟨rfl, hn⟩
  unfold markupRest at h
  split at h
  · simp [(hkind h).1]
  split at h
  · simp [(hkind h).1]
  split at h
  · split at h
    · split at h
      · simp [(hkind h).1]
      · cases h
    · cases h
  split at h
  · simp [(hkind h).1]
  split at h
  · exact .inr (.inl (hkind h))
  split at h
  · split at h
    · next hb => exact .inr (.inr ⟨⟨_, _, rfl, hb⟩, h⟩)
    · cases h
  · cases h

theorem slash_of_endTagRest {n : Nat} (h : endTagRest s = some n) : ∃ rest, s.take n = Byte.slash :: rest := by
  unfold endTagRest at h
  split at h
  · next slash first s =>
    split at h
    · next hs =>
      simp only [Bool.and_eq_true, decide_eq_true_eq] at hs
      dsimp only at h
      split at h
      · split at h
        · cases h
          exact ⟨(first :: s).take _, by rw [hs.1, Nat.add_right_comm, Nat.add_comm 2 1, Nat.add_assoc, Nat.add_comm 1,
            List.take_succ_cons]⟩
        · cases h
      · cases h
    · cases h
  · cases h

/-- The bytes that open the tags of a kind of tokens. -/
def TokenKind.opening? : TokenKind → Option Bytes
  | .startTag | .emptyTag => some (utf8 "<")
  | .endTag => some (utf8 "</")
  | _ => none

theorem opening?_eq_none {kind : TokenKind} (h : kind ∈ [.comment, .cdata, .declaration, .processingInstruction]) :
    kind.opening? = none := by
  simp only [List.mem_cons, List.not_mem_nil, or_false] at h
  rcases h with rfl | rfl | rfl | rfl <;> rfl

theorem opening_prefix_lexeme {c : UInt8} (h : (lexeme c s).1.opening? = some opening) :
    opening <+: c :: s.take (lexeme c s).2 := by
  unfold lexeme at h ⊢
  split at h
  · next hc =>
    subst hc
    rw [if_pos rfl]
    cases hm : markupRest s with
    | none => simp [hm, TokenKind.opening?] at h
    | some r =>
      obtain ⟨kind, n⟩ := r
      simp only [hm, Option.getD_some] at h ⊢
      rcases cases_of_markupRest hm with hother | ⟨rfl, hend⟩ | ⟨_, htag⟩
      · simp [opening?_eq_none hother] at h
      · obtain ⟨rest, hrest⟩ := slash_of_endTagRest hend
        cases h
        exact ⟨rest, by rw [hrest]; rfl⟩
      · rcases kind_of_tagRest htag with rfl | rfl <;>
          · cases h
            exact ⟨s.take n, rfl⟩
  · simp [TokenKind.opening?] at h

theorem exists_lexeme_of_mem_tokensFrom {source filename : Bytes} {pos : Nat}
    (h : tok ∈ tokensFrom source filename pos s) :
    ∃ c rest, tok.kind = (lexeme c rest).1 ∧ tok.value = c :: rest.take (lexeme c rest).2 := by
  fun_induction tokensFrom source filename pos s with
  | case1 pos => simp at h
  | case2 pos c s l value ih =>
    rcases List.mem_cons.1 h with rfl | h
    · exact ⟨c, s, rfl, rfl⟩
    · exact ih h

/-- The source text of the part of an attribute after its name. -/
def AttributeValue.text (v : AttributeValue) : Bytes := v.eq ++ v.quote ++ v.value ++ v.quote

@[simp] theorem AttributeValue.length_text (v : AttributeValue) : v.text.length = v.size := by
  simp only [text, size, lead, List.length_append]

/-- What is written for an attribute. -/
structure Spelling where
  space : Bytes
  name : Bytes
  value : AttributeValue

def Spelling.text (a : Spelling) : Bytes := a.space ++ a.name ++ a.value.text

def RawAttribute.spelling (a : RawAttribute) : Spelling :=
  ⟨a.space, a.name.value, ⟨a.eq, a.quote, a.value.value⟩⟩

@[simp] theorem RawAttribute.text_spelling (a : RawAttribute) : a.spelling.text = a.text := by
  simp only [Spelling.text, spelling, AttributeValue.text, RawAttribute.text, List.append_assoc]

/-- Whether a byte can stand in a value without quotes. -/
def isBareByte (b : UInt8) : Bool := !(Byte.isBlank b || b == Byte.greater || Byte.isQuote b)

/-- What can be read after the name of an attribute. -/
inductive AttributeValue.Readable : AttributeValue → Prop where
  | absent : Readable ⟨[], [], []⟩
  | quoted {before after value : Bytes} {q : UInt8} (hbefore : ∀ b ∈ before, Byte.isBlank b = true)
      (hafter : ∀ b ∈ after, Byte.isBlank b = true) (hq : Byte.isQuote q = true) (hvalue : q ∉ value) :
      Readable ⟨before ++ Byte.equals :: after, [q], value⟩
  | bare {before after value : Bytes} (hbefore : ∀ b ∈ before, Byte.isBlank b = true)
      (hafter : ∀ b ∈ after, Byte.isBlank b = true) (hne : value ≠ [])
      (hvalue : ∀ b ∈ value, isBareByte b = true) : Readable ⟨before ++ Byte.equals :: after, [], value⟩

/-- The parts of an attribute are such as are read. -/
structure Spelling.Readable (a : Spelling) : Prop where
  space_ne_nil : a.space ≠ []
  space : ∀ b ∈ a.space, Byte.isBlank b = true
  name_ne_nil : a.name ≠ []
  name : ∀ b ∈ a.name, isAttributeNameByte b = true
  value : a.value.Readable

def IsEnding (tail : Bytes) : Prop :=
  ∃ blanks : Bytes, (∀ b ∈ blanks, Byte.isBlank b = true) ∧
    (tail = blanks ++ [Byte.greater] ∨ tail = blanks ++ [Byte.slash, Byte.greater])

theorem Token.value_slice {a b : Bytes} (h : tok.value.drop i = a ++ b) :
    (tok.slice i (i + a.length)).value = a := by
  simp only [slice, h, Nat.add_sub_cancel_left, List.take_left]

theorem Token.drop_value_add {a b : Bytes} (h : tok.value.drop i = a ++ b) : tok.value.drop (i + a.length) = b := by
  rw [← List.drop_drop, h, List.drop_left]

/-- The piece of a token that stands at an offset in it. -/
def Token.piece (tok : Token) (i : Nat) (value : Bytes) : Token := { tok with value, pos := tok.pos + i }

theorem Token.slice_eq_piece {a b : Bytes} (h : tok.value.drop i = a ++ b) :
    tok.slice i (i + a.length) = tok.piece i a :=
  congrArg (tok.piece i) (Token.value_slice h)

/-- The attribute written at an offset: its name stands after the blanks, its value after the equals sign and the quote.
-/
def Spelling.place (tok : Token) (i : Nat) (a : Spelling) : RawAttribute :=
  { space := a.space, name := tok.piece (i + a.space.length) a.name, eq := a.value.eq, quote := a.value.quote
    value := tok.piece (i + a.space.length + a.name.length + a.value.lead) a.value.value }

theorem slice_eq_place {space name after : Bytes} {v : AttributeValue}
    (h : tok.value.drop i = space ++ (name ++ (v.text ++ after))) :
    { space, name := tok.slice (i + space.length) (i + space.length + name.length), eq := v.eq
      quote := v.quote
      value := tok.slice (i + space.length + name.length + v.lead)
        (i + space.length + name.length + v.lead + v.value.length) : RawAttribute } =
      Spelling.place tok i ⟨space, name, v⟩ := by
  have hname : tok.value.drop (i + space.length) = name ++ (v.text ++ after) := Token.drop_value_add h
  have hlead : tok.value.drop (i + space.length + name.length) =
      (v.eq ++ v.quote) ++ (v.value ++ (v.quote ++ after)) := by
    rw [Token.drop_value_add hname]
    simp only [AttributeValue.text, List.append_assoc]
  have hvalue : tok.value.drop (i + space.length + name.length + v.lead) = v.value ++ (v.quote ++ after) := by
    rw [AttributeValue.lead, ← List.length_append]
    exact Token.drop_value_add hlead
  rw [Token.slice_eq_piece hname, Token.slice_eq_piece hvalue]
  rfl

theorem isBareByte_of_mem_take : ∀ b ∈ s.take (bareValueLength s), isBareByte b = true := by
  induction s with
  | nil => simp
  | cons c s ih =>
    rw [bareValueLength]
    split
    · simp
    · next hc =>
      split
      · simp
      · rw [List.take_succ_cons, List.forall_mem_cons]
        exact ⟨by simpa [isBareByte] using hc, ih⟩

theorem readable_of_attributeValue? {v : AttributeValue} (h : attributeValue? s = some v) : v.Readable ∧ v.text <+: s := by
  have hblank : ∀ s : Bytes, ∀ b ∈ s.takeWhile Byte.isBlank, Byte.isBlank b = true :=
    fun s b hb => List.mem_takeWhile_imp hb
  have hsplit := List.takeWhile_append_dropWhile (p := Byte.isBlank) (l := s)
  simp only [attributeValue?] at h
  split at h
  · cases h
    exact ⟨.absent, List.nil_prefix⟩
  · next c s₁ hs₁ =>
    rw [hs₁] at hsplit
    split at h
    · cases h
      exact ⟨.absent, List.nil_prefix⟩
    · next hc =>
      rw [ne_eq, not_not] at hc
      subst hc
      have hsplit₁ := List.takeWhile_append_dropWhile (p := Byte.isBlank) (l := s₁)
      split at h
      · cases h
      · next q s₂ hs₂ =>
        rw [hs₂] at hsplit₁
        split at h
        · next hq =>
          obtain ⟨⟨value, after⟩, hvalue, rfl⟩ := Option.map_eq_some_iff.1 h
          obtain ⟨rfl, hnot⟩ := Bytes.breakAt?_eq_some_iff.1 hvalue
          refine ⟨.quoted (hblank s) (hblank s₁) hq hnot, after, ?_⟩
          conv => rhs; rw [← hsplit, ← hsplit₁]
          simp [AttributeValue.text]
        · split at h
          · cases h
          · next hlength =>
            cases h
            refine ⟨.bare (hblank s) (hblank s₁) (by simp [hlength]) isBareByte_of_mem_take,
              (q :: s₂).drop (bareValueLength (q :: s₂)), ?_⟩
            conv => rhs; rw [← hsplit, ← hsplit₁]
            simp [AttributeValue.text]

/-- The attributes that are read off a token can be read, and so can the ending. They stand there one after the other. -/
theorem readable_of_readAttributes? {ending : Bytes} {raws : List RawAttribute}
    (h : readAttributes? tok i s = some (raws, ending)) (hs : tok.value.drop i = s) :
    raws.flatMap RawAttribute.text ++ ending = s ∧ (∀ a ∈ raws, a.spelling.Readable) ∧ IsEnding ending := by
  fun_induction readAttributes? tok i s generalizing raws ending with
  | case1 i s rest =>
    rename_i hend
    cases h
    refine ⟨rfl, by simp, s.takeWhile Byte.isBlank, fun b hb => List.mem_takeWhile_imp hb, ?_⟩
    have hsplit := List.takeWhile_append_dropWhile (p := Byte.isBlank) (l := s)
    simp only [Bool.or_eq_true, decide_eq_true_eq] at hend
    refine hend.imp ?_ ?_ <;>
      · intro hrest
        exact hsplit.symm.trans (congrArg (s.takeWhile Byte.isBlank ++ ·) hrest)
  | case2 => cases h
  | case3 => cases h
  | case4 => cases h
  | case5 i s space rest _ hspace name hname start after v hv nameEnd =>
    rename_i attr ih
    obtain ⟨⟨more, ending'⟩, hmore, he⟩ := Option.map_eq_some_iff.1 h
    cases he
    obtain ⟨hvalue, tail, htail⟩ := readable_of_attributeValue? hv
    have hsplit : s = space ++ (name ++ (v.text ++ tail)) := by
      rw [htail, List.takeWhile_append_dropWhile, List.takeWhile_append_dropWhile]
    have hdrop := hs.trans hsplit
    have hspelling : attr.spelling = ⟨space, name, v⟩ := congrArg RawAttribute.spelling (slice_eq_place hdrop)
    have hrest : after.drop v.size = tail := by rw [← htail, ← v.length_text, List.drop_left]
    have hnext : tok.value.drop (nameEnd + v.size) = after.drop v.size := by
      rw [hrest, ← v.length_text]
      exact Token.drop_value_add (Token.drop_value_add (Token.drop_value_add hdrop))
    obtain ⟨htext, hreadable, hending⟩ := ih hmore hnext
    refine ⟨?_, List.forall_mem_cons.2 ⟨?_, hreadable⟩, hending⟩
    · rw [List.flatMap_cons, List.append_assoc, htext, hrest, ← attr.text_spelling, hspelling, hsplit]
      simp [Spelling.text]
    · rw [hspelling]
      simp only [Bool.or_eq_true, not_or, List.isEmpty_iff] at hspace
      exact ⟨hspace.1, fun b hb => List.mem_takeWhile_imp hb, hname, fun b hb => List.mem_takeWhile_imp hb, hvalue⟩

theorem Tag.text_of_ofToken? (h : Tag.ofToken? tok = some tag)
    (hopen : ∀ opening, tok.kind.opening? = some opening → opening <+: tok.value) :
    tag.text = tok.value := by
  obtain ⟨opening, hkind, h⟩ := Option.bind_eq_some_iff.1 h
  obtain ⟨s, hs⟩ := hopen opening hkind
  have hdrop : tok.value.drop opening.length = s := by rw [← hs, List.drop_left]
  simp only [hdrop] at h
  split at h
  · cases h
  · obtain ⟨⟨attributes, ending⟩, hread, rfl⟩ := Option.map_eq_some_iff.1 h
    have hname : tok.value.drop opening.length = s.takeWhile isNameByte ++ s.dropWhile isNameByte := by
      rw [hdrop, List.takeWhile_append_dropWhile]
    have hrest := (readable_of_readAttributes? hread (Token.drop_value_add hname)).1
    simp only [Tag.text, Token.value_slice hname, List.append_assoc, hrest]
    rw [List.takeWhile_append_dropWhile, hs]

theorem Tag.text_of_mem_tokenize {source filename : Bytes} (hmem : tok ∈ tokenize source filename)
    (h : Tag.ofToken? tok = some tag) :
    tag.text = tok.value :=
  Tag.text_of_ofToken? h fun _ ho => by
    obtain ⟨c, rest, hkind, hvalue⟩ := exists_lexeme_of_mem_tokensFrom hmem
    rw [hvalue]
    exact opening_prefix_lexeme (hkind ▸ ho)

end PageTemplate.Markup
