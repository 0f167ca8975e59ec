import PageTemplate.Proofs.Assoc
import PageTemplate.Proofs.Bytes
import PageTemplate.Proofs.Utf8
import PageTemplate.Translation.Catalog

/-!
Files of messages. A file is a list of messages and of the lines between them, and a message has an id, a context, and
one text or one for each plural form, all printed as literals that may go on over several lines. `Reads` says where
lines lead, whatever stands after them: a message leads from any state between two messages to one in which it is
complete (`IsBetween.reads_message`), and a file adds the messages to be kept in their order (`IsBetween.reads_file`).
The main statement is `translate_read`: from the catalog that is read, each id gets the text of the last message with it,
for the language of the file and for all its variants.
-/

namespace PageTemplate

theorem Text.trim_of_ends {a b : UInt8} (ha : a < 0x80) (hb : b < 0x80)
    (hna : Text.isBlank (Char.ofNat a.toNat) = false) (hnb : Text.isBlank (Char.ofNat b.toNat) = false) (s : Bytes) :
    Text.trim (a :: (s ++ [b])) = a :: (s ++ [b]) := by
  have hglyphs : Text.glyphs (a :: (s ++ [b])) =
      .char (Char.ofNat a.toNat) :: (Text.glyphs s ++ [.char (Char.ofNat b.toNat)]) := by
    rw [Text.glyphs_cons ha, Text.glyphs_append hb, Text.glyphs_cons hb, Text.glyphs]
  rw [Text.trim, hglyphs, List.dropWhile_cons_of_neg (by simp [Text.Glyph.isBlank, hna]), List.reverse_cons,
    List.reverse_append, List.reverse_singleton, List.singleton_append, List.cons_append,
    List.dropWhile_cons_of_neg (by simp [Text.Glyph.isBlank, hnb])]
  simp only [List.reverse_cons, List.reverse_append, List.reverse_reverse, List.reverse_nil, List.nil_append,
    List.cons_append, ← hglyphs, Text.ofGlyphs_glyphs]

namespace Bytes

variable {b : UInt8} {s : Bytes}

theorem splitAt_of_notMem (h : b ∉ s) : splitAt b s = [s] := by
  induction s with
  | nil => rfl
  | cons c s ih =>
    rw [List.mem_cons, not_or] at h
    rw [splitAt_cons, if_neg (Ne.symm h.1), ih h.2]
    rfl

theorem splitAt_append (h : b ∉ s) (t : Bytes) : splitAt b (s ++ b :: t) = s :: splitAt b t := by
  induction s with
  | nil => rw [List.nil_append, splitAt_cons, if_pos rfl]
  | cons c s ih =>
    rw [List.mem_cons, not_or] at h
    rw [List.cons_append, splitAt_cons, if_neg (Ne.symm h.1), ih h.2]
    rfl

theorem splitAt_join {ls : List Bytes} (hne : ls ≠ []) (h : ∀ l ∈ ls, b ∉ l) : splitAt b (join [b] ls) = ls := by
  induction ls with
  | nil => exact absurd rfl hne
  | cons l ls ih =>
    obtain ⟨hl, hls⟩ := List.forall_mem_cons.1 h
    cases ls with
    | nil => exact splitAt_of_notMem hl
    | cons l' ls =>
      rw [join, List.append_assoc, List.singleton_append, splitAt_append hl, ih (List.cons_ne_nil l' ls) hls]
      exact List.cons_ne_nil l' ls

end Bytes

namespace Catalog

variable {b : UInt8}

/-! ### Messages as they are printed -/

structure Literal where
  body : Bytes
  value : Bytes
  reads : Text.unquote? (Byte.doubleQuote :: (body ++ [Byte.doubleQuote])) = some value

def Literal.text (l : Literal) : Bytes := Byte.doubleQuote :: (l.body ++ [Byte.doubleQuote])

/-- A string printed as one or more literals, of which only the first stands on the line of its keyword. -/
structure Printed where
  first : Literal
  rest : List Literal

namespace Printed

def value (s : Printed) : Bytes := (s.first :: s.rest).flatMap Literal.value

def lines (s : Printed) (keyword : Bytes) : List Bytes :=
  (keyword ++ Byte.space :: s.first.text) :: s.rest.map Literal.text

end Printed

/-- The number of a plural form other than the first. -/
structure FormNumber where
  text : Bytes
  word : Byte.space ∉ text
  further : text ≠ utf8 "0"

def FormNumber.keyword (i : FormNumber) : Bytes := utf8 "msgstr[" ++ (i.text ++ utf8 "]")

/-- The texts of a message: one, or one for each plural form, of which the first counts. -/
inductive Forms where
  | single (msgstr : Printed)
  | plural (msgidPlural msgstr : Printed) (further : List (FormNumber × Printed))

namespace Forms

def value : Forms → Bytes
  | single msgstr | plural _ msgstr _ => msgstr.value

def lines : Forms → List Bytes
  | single msgstr => msgstr.lines (utf8 "msgstr")
  | plural msgidPlural msgstr further =>
    msgidPlural.lines (utf8 "msgid_plural") ++ msgstr.lines (utf8 "msgstr[0]") ++
      further.flatMap fun f => f.2.lines f.1.keyword

end Forms

structure Message where
  fuzzy : Bool
  context : Option Printed
  msgid : Printed
  forms : Forms

namespace Message

def lines (m : Message) : List Bytes :=
  (if m.fuzzy then [utf8 "#, fuzzy"] else []) ++ (m.context.elim [] (·.lines (utf8 "msgctxt")) ++
    (m.msgid.lines (utf8 "msgid") ++ m.forms.lines))

/-- The id and the text of a message that is to be kept: neither is empty, the message is not marked as a guess, and it
holds for every context. -/
def text? (m : Message) : Option (Bytes × Bytes) :=
  if m.fuzzy ∨ m.context.isSome ∨ m.msgid.value = [] ∨ m.forms.value = [] then none
  else some (m.msgid.value, m.forms.value)

end Message

/-- A line without a carriage return at its end. -/
def chomp (raw : Bytes) : Bytes := if raw.getLast? = some Byte.carriageReturn then raw.dropLast else raw

/-- A blank line or a comment that gives no flags. -/
structure Separator where
  text : Bytes
  apart : Text.trim (chomp text) = [] ∨
    (Text.trim (chomp text)).head? = some Byte.hash ∧ (utf8 "#,").isPrefixOf (Text.trim (chomp text)) = false

inductive Item where
  | separator (s : Separator)
  | message (m : Message)

namespace Item

def lines : Item → List Bytes
  | separator s => [s.text]
  | message m => m.lines

def text? : Item → Option (Bytes × Bytes)
  | separator _ => none
  | message m => m.text?

end Item

/-- The text of the last message to be kept that has an id. -/
def lastText (file : List Item) (msgid : Bytes) : Bytes :=
  (Assoc.get? (file.filterMap Item.text?).reverse msgid).getD []

/-- The language that a language is a variant of: what stands before its first `_` or `-`. -/
def base (language : Bytes) : Bytes := language.takeWhile fun b => b != Byte.underscore && b != Byte.minus

namespace Reading

/-- The lines lead from one state of reading to another, unless one of them is too long. -/
def Reads (r : Reading) (ls : List Bytes) (r' : Reading) : Prop :=
  (∀ l ∈ ls, l.length ≤ longestLine) → ∀ n rest, ∃ n', r.lines n (ls ++ rest) = r'.lines n' rest

variable {r r₁ r₂ : Reading} {p : Part} {word : Bytes}

namespace Reads

variable {ls ls' : List Bytes}

theorem nil (r : Reading) : Reads r [] r := fun _ n _ => ⟨n, rfl⟩

theorem append (h : Reads r ls r₁) (h' : Reads r₁ ls' r₂) : Reads r (ls ++ ls') r₂ := by
  intro hshort n rest
  obtain ⟨hls, hls'⟩ := List.forall_mem_append.1 hshort
  obtain ⟨n₁, hn₁⟩ := h hls n (ls' ++ rest)
  obtain ⟨n₂, hn₂⟩ := h' hls' n₁ rest
  exact ⟨n₂, by rw [List.append_assoc, hn₁, hn₂]⟩

theorem line {raw : Bytes} (h : ∀ n, r.line n (chomp raw) = (r₁, none)) : Reads r [raw] r₁ := by
  intro hshort n rest
  have hlength : ¬ raw.length > longestLine := Nat.not_lt.2 (hshort raw (List.mem_singleton_self raw))
  refine ⟨n + 1, ?_⟩
  rw [List.singleton_append, lines, if_neg hlength]
  simp only [← chomp.eq_def, h n]

end Reads

/-- The state with more of the part that is read. -/
def extended (r : Reading) (p : Part) (value : Bytes) : Reading := { r with entry := r.entry.extend value p }

theorem extended_extended (r : Reading) (p : Part) (s t : Bytes) :
    (r.extended p s).extended p t = r.extended p (s ++ t) := by
  cases p <;> simp [extended, Entry.extend, Function.comp_def]

/-- Nothing is cut off a line that begins with a keyword or a quote and ends in a quote. -/
theorem whole_line (hb : b = 109 ∨ b = Byte.doubleQuote) (s : Bytes) :
    Text.trim (chomp (b :: (s ++ [Byte.doubleQuote]))) = b :: (s ++ [Byte.doubleQuote]) := by
  rw [chomp, if_neg]
  · rcases hb with rfl | rfl <;> exact Text.trim_of_ends (by decide) (by decide) (by decide) (by decide) _
  · simp [List.getLast?_cons]
    decide

theorem reads_literal (hpart : r.part = some p) (l : Literal) : Reads r [l.text] (r.extended p l.value) := by
  have hwhole : Text.trim (chomp l.text) = l.text := whole_line (.inr rfl) l.body
  have htrim : Text.trim l.text = l.text := Text.trim_of_ends (by decide) (by decide) (by decide) (by decide) _
  have hkeyword : r.keyword [] = .ok r := by simp [keyword, hpart]
  have hreads : Text.unquote? l.text = some l.value := l.reads
  refine .line fun n => ?_
  simp only [line, hwhole]
  rw [if_neg (by simp [Literal.text]), if_neg (by simp [Literal.text]; decide),
    if_pos (show l.text.head? = some Byte.doubleQuote from rfl)]
  simp only [hkeyword, htrim, hreads, hpart, extended]

theorem reads_literals (hpart : r.part = some p) (ls : List Literal) :
    Reads r (ls.map Literal.text) (r.extended p (ls.flatMap Literal.value)) := by
  induction ls generalizing r with
  | nil =>
    have hnil : r.extended p [] = r := by cases p <;> simp [extended, Entry.extend]
    exact hnil.symm ▸ .nil r
  | cons l ls ih =>
    rw [List.map_cons, List.flatMap_cons, ← extended_extended]
    exact (reads_literal hpart l).append (ih hpart)

/-- The word begins a line of a message and ends at the first space. -/
structure IsKeyword (word : Bytes) : Prop where
  head : word.head? = some 109
  space : Byte.space ∉ word

theorem reads_keyword (hword : IsKeyword word) (hkeyword : r.keyword word = .ok r₁) (hpart : r₁.part = some p)
    (l : Literal) : Reads r [word ++ Byte.space :: l.text] (r₁.extended p l.value) := by
  obtain ⟨tail, rfl⟩ := List.head?_eq_some_iff.1 hword.head
  have hwhole : Text.trim (chomp ((109 :: tail) ++ Byte.space :: l.text)) = (109 :: tail) ++ Byte.space :: l.text := by
    simpa [Literal.text] using whole_line (.inl rfl) (tail ++ Byte.space :: Byte.doubleQuote :: l.body)
  have htrim : Text.trim l.text = l.text := Text.trim_of_ends (by decide) (by decide) (by decide) (by decide) _
  have hreads : Text.unquote? l.text = some l.value := l.reads
  have hbreak : Bytes.breakAt? Byte.space ((109 :: tail) ++ Byte.space :: l.text) = some (109 :: tail, l.text) :=
    Bytes.breakAt?_eq_some_iff.2 ⟨rfl, hword.space⟩
  refine .line fun n => ?_
  simp only [line, hwhole]
  rw [if_neg (by simp), if_neg (by simp; decide), if_neg (by simp; decide)]
  simp only [hbreak, Option.getD_some, hkeyword, htrim, hreads, hpart, extended]

theorem reads_printed (hword : IsKeyword word) (hkeyword : r.keyword word = .ok r₁) (hpart : r₁.part = some p)
    (s : Printed) : Reads r (s.lines word) (r₁.extended p s.value) := by
  rw [Printed.lines, Printed.value, List.flatMap_cons, ← extended_extended]
  have hpart' : (r₁.extended p s.first.value).part = some p := hpart
  exact (reads_keyword hword hkeyword hpart s.first).append (reads_literals hpart' s.rest)

theorem keyword_msgid (r : Reading) : r.keyword (utf8 "msgid") =
    .ok ((if r.entry.complete || r.entry.msgid.isSome then r.flush else r).start .msgid) := by
  rw [keyword, if_neg (by decide), if_neg (by decide), if_pos (by decide)]

theorem keyword_further (r : Reading) (i : FormNumber) : r.keyword i.keyword = .ok { r with part := some .ignored } := by
  have hopens : (utf8 "msgstr[").isPrefixOf i.keyword = true := List.isPrefixOf_iff_prefix.2 ⟨_, rfl⟩
  have hother : ∀ word, (utf8 "msgstr[").isPrefixOf word = false → ¬ (i.keyword == word) = true := by
    intro word hword heq
    rw [beq_iff_eq.1 heq, hword] at hopens
    cases hopens
  have hfirst : ¬ (i.keyword == utf8 "msgstr[0]") = true := by
    intro heq
    have hrest : i.text ++ utf8 "]" = utf8 "0" ++ utf8 "]" := List.append_cancel_left (beq_iff_eq.1 heq)
    exact i.further (List.append_cancel_right hrest)
  have hempty : ¬ i.keyword.isEmpty = true := Bool.false_ne_true
  rw [keyword, if_neg hempty, if_neg (hother _ (by decide)), if_neg (hother _ (by decide)),
    if_neg (hother _ (by decide)), if_neg, if_pos hopens]
  rw [Bool.or_eq_true, not_or]
  exact ⟨hother _ (by decide), hfirst⟩

theorem reads_further (hpart : r.part = some p) (further : List (FormNumber × Printed)) :
    ∃ p, Reads r (further.flatMap fun f => f.2.lines f.1.keyword) { r with part := some p } := by
  induction further generalizing r p with
  | nil => exact ⟨p, hpart ▸ .nil r⟩
  | cons f further ih =>
    have hword : IsKeyword f.1.keyword := by
      refine ⟨rfl, ?_⟩
      rw [FormNumber.keyword, List.mem_append, List.mem_append, not_or, not_or]
      exact ⟨by decide, f.1.word, by decide⟩
    obtain ⟨last, hlast⟩ := ih (r := { r with part := some .ignored }) rfl
    exact ⟨last, (reads_printed hword (r.keyword_further f.1) rfl f.2).append hlast⟩

/-- The state with a text for the open entry, which completes it. -/
def completed (r : Reading) (msgstr : Bytes) (p : Part) : Reading :=
  { r with entry := { r.entry with msgstr := some msgstr, complete := true }, part := some p }

theorem reads_msgstr (h : r.entry.complete = false) (hword : word = utf8 "msgstr" ∨ word = utf8 "msgstr[0]")
    (s : Printed) : Reads r (s.lines word) (r.completed s.value .msgstr) := by
  have hstart : r.start .msgstr = r.completed [] .msgstr := by
    rw [start, if_neg (by simp [h])]
    rfl
  have hkeyword : IsKeyword word ∧ r.keyword word = .ok (r.completed [] .msgstr) := by
    rcases hword with rfl | rfl <;>
      rw [keyword, if_neg (by decide), if_neg (by decide), if_neg (by decide), if_neg (by decide), if_pos (by decide),
        hstart] <;>
      exact ⟨⟨rfl, by decide⟩, rfl⟩
  exact reads_printed hkeyword.1 hkeyword.2 rfl s

theorem reads_forms (h : r.entry.complete = false) (forms : Forms) :
    ∃ p, Reads r forms.lines (r.completed forms.value p) := by
  cases forms with
  | single msgstr => exact ⟨.msgstr, reads_msgstr h (.inl rfl) msgstr⟩
  | plural msgidPlural msgstr further =>
    have hkeyword : r.keyword (utf8 "msgid_plural") = .ok { r with part := some .ignored } := by
      rw [keyword, if_neg (by decide), if_neg (by decide), if_neg (by decide), if_pos (by decide)]
    have hplural : Reads r _ { r with part := some .ignored } :=
      reads_printed ⟨rfl, by decide⟩ hkeyword rfl msgidPlural
    have hfirst := reads_msgstr (r := { r with part := some .ignored }) h (.inr rfl) msgstr
    obtain ⟨p, hfurther⟩ := reads_further (r := r.completed msgstr.value .msgstr) rfl further
    exact ⟨p, (hplural.append hfirst).append hfurther⟩

@[simp] theorem flush_flush (r : Reading) : r.flush.flush = r.flush := by
  have hentry : r.flush.entry = {} := rfl
  have hpart : r.flush.part = none := rfl
  rw [flush, hentry]
  simp only [Entry.message?, ← hentry, ← hpart]

theorem flush_domain (r : Reading) : r.flush.domain = r.domain := by
  rw [flush]
  split <;> rfl

theorem flush_language (r : Reading) : r.flush.language = r.language := by
  rw [flush]
  split <;> rfl

/-- Nothing is left of an entry that is not complete. -/
def IsBetween (r : Reading) : Prop := r.entry.complete = true ∨ r.flush = r

/-- The first keyword of a message closes what stands before it. -/
structure Opens (r base : Reading) (fuzzy : Bool) : Prop where
  context : r.start .context = { base with entry := { fuzzy, context := some [] }, part := some .context }
  msgid : r.keyword (utf8 "msgid") = .ok { base with entry := { fuzzy, msgid := some [] }, part := some .msgid }

theorem IsBetween.opens (h : r.IsBetween) : Opens r r.flush false := by
  rcases h with hcomplete | hflush
  · refine ⟨?_, ?_⟩
    · rw [start, if_pos hcomplete]
      rfl
    · rw [keyword_msgid, hcomplete]
      rfl
  · have hentry : r.entry = {} := by rw [← hflush]; rfl
    refine ⟨?_, ?_⟩
    · rw [start, hflush, if_neg (by simp [hentry])]
      simp [hentry, Entry.start]
    · rw [keyword_msgid, hflush, ite_self, start, if_neg (by simp [hentry])]
      simp [hentry, Entry.start]

theorem IsBetween.reads_fuzzy (h : r.IsBetween) :
    Reads r [utf8 "#, fuzzy"] { r.flush with entry := { fuzzy := true } } := by
  have htrim : Text.trim (utf8 "#, fuzzy") = utf8 "#, fuzzy" :=
    Text.trim_of_ends (by decide) (by decide) (by decide) (by decide) (utf8 ", fuzz")
  refine .line fun n => ?_
  rw [show chomp (utf8 "#, fuzzy") = utf8 "#, fuzzy" by decide, line]
  simp only [htrim]
  rw [if_neg (by decide), if_pos (by decide), if_pos (by decide)]
  rcases h with hcomplete | hflush
  · rw [if_pos hcomplete]
    rfl
  · have hentry : r.entry = {} := by rw [← hflush]; rfl
    rw [hflush, ite_self, hentry]

/-- The state with the context and the id of a message in the open entry. -/
def opened (r : Reading) (m : Message) : Reading :=
  { r with
    entry := { fuzzy := m.fuzzy, context := m.context.map Printed.value, msgid := some m.msgid.value }
    part := some .msgid }

theorem IsBetween.reads_message (h : r.IsBetween) (m : Message) :
    ∃ p, Reads r m.lines ((r.flush.opened m).completed m.forms.value p) := by
  obtain ⟨r₁, hflag, hopens⟩ : ∃ r₁, Reads r (if m.fuzzy then [utf8 "#, fuzzy"] else []) r₁ ∧
      Opens r₁ r.flush m.fuzzy := by
    cases m.fuzzy with
    | false => exact ⟨r, .nil r, h.opens⟩
    | true => exact ⟨_, h.reads_fuzzy, rfl, keyword_msgid _⟩
  obtain ⟨r₂, hcontext, hmsgid⟩ : ∃ r₂, Reads r₁ (m.context.elim [] (·.lines (utf8 "msgctxt"))) r₂ ∧
      r₂.keyword (utf8 "msgid") = .ok { r.flush with
        entry := { fuzzy := m.fuzzy, context := m.context.map Printed.value, msgid := some [] }
        part := some .msgid } := by
    cases m.context with
    | none => exact ⟨r₁, .nil r₁, hopens.msgid⟩
    | some s =>
      have hkeyword : r₁.keyword (utf8 "msgctxt") = .ok (r₁.start .context) := by
        rw [keyword, if_neg (by decide), if_pos (by decide)]
      rw [hopens.context] at hkeyword
      exact ⟨_, reads_printed ⟨rfl, by decide⟩ hkeyword rfl s, keyword_msgid _⟩
  have hid : Reads r₂ _ (r.flush.opened m) := reads_printed ⟨rfl, by decide⟩ hmsgid rfl m.msgid
  obtain ⟨p, hforms⟩ := reads_forms (r := r.flush.opened m) rfl m.forms
  exact ⟨p, hflag.append (hcontext.append (hid.append hforms))⟩

theorem message?_completed (r : Reading) (m : Message) (p : Part) :
    ((r.opened m).completed m.forms.value p).entry.message? = m.text? := by
  obtain ⟨fuzzy, context, msgid, forms⟩ := m
  simp only [Entry.message?, completed, opened, Message.text?]
  cases fuzzy <;> cases context <;> simp
  grind

/-! ### Files -/

theorem IsBetween.reads_separator (h : r.IsBetween) (s : Separator) : Reads r [s.text] r.flush := by
  refine .line fun n => ?_
  rw [line]
  rcases s.apart with hblank | ⟨hhash, hflags⟩
  · rw [if_pos (by simp [hblank])]
  · rw [if_neg, if_pos hhash]
    · simp only [hflags, Bool.false_and, Bool.false_eq_true, if_false]
      rcases h with hcomplete | hflush
      · rw [if_pos hcomplete]
      · rw [hflush, ite_self]
    · intro hempty
      rw [List.isEmpty_iff.1 hempty] at hhash
      cases hhash

end Reading

/-- Texts by message id as the entries of a catalog. -/
def keyed (domain language : Bytes) (messages : Assoc Bytes) : Assoc Bytes :=
  messages.map fun m => (messageKey domain language m.1, m.2)

namespace Reading

theorem IsBetween.reads_file {r : Reading} (h : r.IsBetween) (file : List Item) :
    ∃ r', Reads r (file.flatMap Item.lines) r' ∧ r'.flush.catalog.messages =
      r.flush.catalog.messages.insertAll (keyed r.domain r.language (file.filterMap Item.text?)) := by
  induction file generalizing r with
  | nil => exact ⟨r, .nil r, rfl⟩
  | cons item file ih =>
    cases item with
    | separator s =>
      obtain ⟨r', hreads, hcatalog⟩ := ih (.inr r.flush_flush)
      rw [flush_flush, flush_domain, flush_language] at hcatalog
      exact ⟨r', (h.reads_separator s).append hreads, hcatalog⟩
    | message m =>
      obtain ⟨p, hmessage⟩ := h.reads_message m
      obtain ⟨r', hreads, hcatalog⟩ := ih (r := (r.flush.opened m).completed m.forms.value p) (.inl rfl)
      refine ⟨r', hmessage.append hreads, ?_⟩
      have hdomain : ((r.flush.opened m).completed m.forms.value p).domain = r.domain := r.flush_domain
      have hlanguage : ((r.flush.opened m).completed m.forms.value p).language = r.language := r.flush_language
      rw [hcatalog, hdomain, hlanguage, flush, message?_completed, List.filterMap_cons, Item.text?]
      cases m.text? with
      | none => rfl
      | some t =>
        simp only [keyed, List.map_cons, Assoc.insertAll, List.foldl_cons, add, hdomain, hlanguage]
        rfl

theorem lines_concat_nil (r : Reading) (n : Nat) (ls : List Bytes) : r.lines n (ls ++ [[]]) = r.lines n ls := by
  induction ls generalizing r n with
  | nil =>
    have hblank : r.line n [] = (r.flush, none) := by
      have htrim : Text.trim [] = [] := by simp [Text.trim, Text.glyphs, Text.ofGlyphs]
      rw [line, htrim]
      rfl
    simp only [List.nil_append, lines, List.getLast?_nil, reduceCtorEq, if_false, hblank, flush_flush]
    rfl
  | cons l ls ih => simp only [List.cons_append, lines, ih]

/-- A text is read by its lines, whether its last line is ended or not. -/
theorem lines_sourceLines (r : Reading) (n : Nat) {ls : List Bytes} (h : ∀ l ∈ ls, Byte.newline ∉ l) :
    r.lines n (sourceLines (Bytes.join [Byte.newline] ls)) = r.lines n ls := by
  by_cases hne : ls = []
  · rw [hne]
    rfl
  · rw [sourceLines, Bytes.splitAt_join hne h]
    split
    · next hlast =>
      obtain ⟨ls', rfl⟩ := List.getLast?_eq_some_iff.1 hlast
      rw [List.dropLast_concat, lines_concat_nil]
    · rfl

end Reading

/-! ### Looking messages up -/

variable {domain language : Bytes}

@[simp] theorem get?_keyed (messages : Assoc Bytes) (msgid : Bytes) :
    (keyed domain language messages).get? (messageKey domain language msgid) = messages.get? msgid := by
  induction messages with
  | nil => rfl
  | cons m messages ih =>
    rw [keyed, List.map_cons, Assoc.get?_cons, Assoc.get?_cons, ← keyed, ih]
    simp [messageKey]

theorem get?_keyed_of_ne {key : Bytes} (h : ∀ msgid, messageKey domain language msgid ≠ key)
    (messages : Assoc Bytes) : (keyed domain language messages).get? key = none := by
  rw [Assoc.get?_eq_none_iff, Assoc.keys, keyed, List.map_map, List.mem_map]
  rintro ⟨m, -, heq⟩
  exact h m.1 heq

/-- The keys of a variant differ from those of its base, as no language goes on with the byte that ends it in a key. -/
theorem messageKey_ne_base (h : base language ≠ language) (msgid msgid' : Bytes) :
    messageKey domain language msgid ≠ messageKey domain (base language) msgid' := by
  have hsplit : base language ++ language.dropWhile _ = language := List.takeWhile_append_dropWhile
  have hhead := List.head?_dropWhile_not (fun b => b != Byte.underscore && b != Byte.minus) language
  generalize language.dropWhile (fun b => b != Byte.underscore && b != Byte.minus) = rest at hsplit hhead
  generalize base language = shorter at hsplit h
  subst hsplit
  cases rest with
  | nil => simp at h
  | cons b rest =>
    intro heq
    simp only [messageKey, List.append_assoc, List.append_cancel_left_eq, List.cons_append, List.nil_append,
      List.cons.injEq, true_and] at heq
    rw [heq.1] at hhead
    exact absurd hhead (show ¬ (true = false) by decide)

theorem languages_eq (language : Bytes) : languages language =
    if base language = [] ∨ base language = language then [language] else [language, base language] := by
  have hlength : (base language).length = language.length ↔ base language = language :=
    ⟨(List.takeWhile_prefix _).eq_of_length, congrArg List.length⟩
  simp only [languages, ← base.eq_def, Bool.or_eq_true, List.isEmpty_iff, decide_eq_true_eq, hlength]

theorem translate_keyed (hlanguage : language ≠ []) (messages : Assoc Bytes) {target : Bytes}
    (htarget : target = language ∨ base target = language) (msgid : Bytes) :
    translate ⟨Assoc.ofEntries (keyed domain language messages)⟩ msgid domain target =
      (Assoc.get? messages.reverse msgid).getD [] := by
  have hget : ∀ l, (Assoc.ofEntries (keyed domain language messages)).get? (messageKey domain l msgid) =
      (keyed domain language messages.reverse).get? (messageKey domain l msgid) := by
    intro l
    rw [Assoc.get?_ofEntries, keyed, ← List.map_reverse, ← keyed]
  rw [translate, languages_eq]
  simp only [hget]
  split
  · next hone =>
    have heq : target = language := by
      rcases htarget with heq | hbase
      · exact heq
      · exact hone.elim (fun hempty => absurd (hbase.symm.trans hempty) hlanguage) fun hself => hself.symm.trans hbase
    simp [heq]
  · next htwo =>
    have hne : base target ≠ target := fun heq => htwo (.inr heq)
    rcases htarget with rfl | rfl
    · rw [List.findSome?_cons, get?_keyed, List.findSome?_singleton,
        get?_keyed_of_ne fun id => messageKey_ne_base hne id msgid]
      split <;> simp_all
    · rw [List.findSome?_cons, get?_keyed_of_ne fun id => (messageKey_ne_base hne msgid id).symm,
        List.findSome?_singleton, get?_keyed]

/-- A file of messages is read whole, and from then on every message it gives text to has the last such text, also for
variants of the language. -/
theorem translate_read (file : List Item)
    (hlines : ∀ l ∈ file.flatMap Item.lines, Byte.newline ∉ l ∧ l.length < 64 * 1024) (domain : Bytes)
    {language : Bytes} (hlanguage : language ≠ []) :
    ∃ c log, ({} : Catalog).read (Bytes.join [Byte.newline] (file.flatMap Item.lines)) domain language = (c, .ok log) ∧
      ∀ msgid target, target = language ∨ base target = language →
        c.translate msgid domain target = lastText file msgid := by
  let r : Reading := { catalog := {}, domain, language }
  obtain ⟨r', hreads, hcatalog⟩ := Reading.IsBetween.reads_file (r := r) (.inr rfl) file
  obtain ⟨n', hrun⟩ := hreads (fun l hl => Nat.le_of_lt_succ (hlines l hl).2) 1 []
  rw [List.append_nil, ← r.lines_sourceLines 1 fun l hl => (hlines l hl).1] at hrun
  refine ⟨r'.flush.catalog, _, by rw [read, hrun]; rfl, fun msgid target htarget => ?_⟩
  have hmessages : r'.flush.catalog = ⟨Assoc.ofEntries (keyed domain language (file.filterMap Item.text?))⟩ :=
    congrArg Catalog.mk hcatalog
  rw [hmessages]
  exact translate_keyed hlanguage _ htarget msgid

theorem unquote?_letter (hplain : b ≠ Byte.doubleQuote ∧ b ≠ Byte.newline ∧ b ≠ Byte.backslash)
    (hascii : b < 0x80) : Text.unquote? [Byte.doubleQuote, b, Byte.doubleQuote] = some [b] := by
  have hchar : Text.readQuotedChar? Byte.doubleQuote [b, Byte.doubleQuote] = some ([b], [Byte.doubleQuote]) := by
    simp [Text.readQuotedChar?, hplain, hascii]
  rw [Text.unquote?, if_neg (by decide), if_pos rfl, Text.readQuoted?, if_neg (by simp)]
  split
  · next hnone => rw [hchar] at hnone; cases hnone
  · next r hsome =>
    rw [hchar] at hsome
    cases hsome
    rw [Text.readQuoted?, if_pos rfl]
    rfl

/-- Messages with the same id: one with a comment after it, a guess, one with a plural and a text in two literals, and
one for a context. -/
def sampleFile : List Item :=
  let a : Literal := ⟨utf8 "a", utf8 "a", unquote?_letter (by decide) (by decide)⟩
  let b : Literal := ⟨utf8 "b", utf8 "b", unquote?_letter (by decide) (by decide)⟩
  let remark : Separator :=
    { text := utf8 "# b"
      apart := by
        have htrim : Text.trim (utf8 "# b") = utf8 "# b" :=
          Text.trim_of_ends (by decide) (by decide) (by decide) (by decide) (utf8 " ")
        rw [show chomp (utf8 "# b") = utf8 "# b" by decide, htrim]
        exact .inr (by decide) }
  [.message ⟨false, none, ⟨a, []⟩, .single ⟨a, []⟩⟩, .separator remark, .message ⟨true, none, ⟨a, []⟩, .single ⟨b, []⟩⟩,
    .message ⟨false, none, ⟨a, []⟩, .plural ⟨a, []⟩ ⟨b, [a]⟩ [(⟨utf8 "1", by decide, by decide⟩, ⟨a, []⟩)]⟩,
    .message ⟨false, some ⟨b, []⟩, ⟨a, []⟩, .single ⟨b, []⟩⟩]

theorem translate_read_variant : ∃ c log,
    ({} : Catalog).read (Bytes.join [Byte.newline] (sampleFile.flatMap Item.lines)) (utf8 "web") (utf8 "de") =
      (c, .ok log) ∧ c.translate (utf8 "a") (utf8 "web") (utf8 "de_AT") = utf8 "ba" := by
  have hlines : (sampleFile.flatMap Item.lines).all
      (fun l => decide (Byte.newline ∉ l ∧ l.length < 64 * 1024)) = true := by decide
  obtain ⟨c, log, hread, htranslate⟩ := translate_read sampleFile
    (fun l hl => of_decide_eq_true (List.all_eq_true.1 hlines l hl)) (utf8 "web") (show utf8 "de" ≠ [] by decide)
  exact ⟨c, log, hread, (htranslate (utf8 "a") (utf8 "de_AT") (.inr (by decide))).trans (by decide)⟩

end Catalog

end PageTemplate
