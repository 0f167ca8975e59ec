import Mathlib.Data.List.DropRight
import Mathlib.Data.List.TakeWhile
import PageTemplate.Proofs.Building

/-!
Definitions that are written down are read back. Each is written with the word for its reach, its names and its
expression, with semicolons doubled, and a semicolon separates it from the next. An expression may look like the
beginning of a definition, or contain semicolons anywhere.
-/

namespace PageTemplate.Clause

open Markup (Token)

variable {s name : Bytes} {c : UInt8}
variable {blanks : Bytes} {t : Token}

/-- The text with every semicolon doubled. -/
def double (s : Bytes) : Bytes := Bytes.substitute Byte.semicolon [Byte.semicolon, Byte.semicolon] s

/-- Names in parentheses, with some space after each comma. -/
def tupleText (gap : Bytes) (names : List Bytes) : Bytes :=
  Byte.leftParen :: (Bytes.join (Byte.comma :: gap) names ++ [Byte.rightParen])

/-- The names of a definition. One name stands alone, unless it is asked for in parentheses as well. -/
def namesText (gap : Bytes) (parenthesized : Bool) (names : List Bytes) : Bytes :=
  match names with
  | [name] => if parenthesized then tupleText gap [name] else name
  | names => tupleText gap names

/-- What stands before the expression of a definition. -/
def targetsText (gap : Bytes) (parenthesized : Bool) (a : Assignment Bytes) : Bytes :=
  utf8 (if a.isGlobal then "global" else "local") ++ Byte.space :: (namesText gap parenthesized a.names ++ [Byte.space])

def definitionsText (gap : Bytes) (parenthesized : Bool) (as : List (Assignment Bytes)) : Bytes :=
  Bytes.join (utf8 "; ") (as.map fun a => targetsText gap parenthesized a ++ double a.expr)

/-- A text that is not empty and neither begins nor ends with a blank. -/
structure IsTrimmed (s : Bytes) : Prop where
  ne_nil : s ≠ []
  head : ∀ b ∈ s.head?, Byte.isBlank b = false
  last : ∀ b ∈ s.getLast?, Byte.isBlank b = false

theorem isTrimmed_of_all (hne : s ≠ [])
    (h : (s.head?.all (!Byte.isBlank ·) && s.getLast?.all (!Byte.isBlank ·)) = true) : IsTrimmed s := by
  simp only [Bool.and_eq_true, Option.all_eq_true, Bool.not_eq_true'] at h
  exact ⟨hne, h.1, h.2⟩

/-- An assignment that can be written as a definition. -/
structure IsWritable (a : Assignment Bytes) : Prop where
  ne_nil : a.names ≠ []
  identifier : ∀ name ∈ a.names, Bytes.isIdentifier name = true
  unreserved : ∀ name ∈ a.names, name ∉ reservedNames
  expr : IsTrimmed a.expr

/-- What a definition says, without the place of its expression. -/
def Definition.assignment (d : Definition) : Assignment Bytes := ⟨d.names, d.expr.value, d.isGlobal⟩

theorem double_cons_of_ne (hc : c ≠ Byte.semicolon) (s : Bytes) : double (c :: s) = c :: double s := by
  rw [double, Bytes.substitute, List.flatMap_cons, if_neg hc]
  rfl

theorem double_append_of_not_mem {p : Bytes} (hp : Byte.semicolon ∉ p) (s : Bytes) :
    double (p ++ s) = p ++ double s := by
  induction p with
  | nil => rfl
  | cons c p ih =>
    rw [List.mem_cons, not_or] at hp
    rw [List.cons_append, double_cons_of_ne (Ne.symm hp.1), ih hp.2, List.cons_append]

theorem pieces_cons_of_ne (hc : c ≠ Byte.semicolon) (start pos : Nat) (seen s : Bytes) :
    pieces start pos seen (c :: s) = pieces start (pos + 1) (c :: seen) s := by
  cases s with
  | nil => simp [pieces, hc]
  | cons d s => rw [pieces, if_pos hc]

/-- A text with doubled semicolons is read as the text itself, whatever follows. -/
theorem pieces_double (s : Bytes) (start pos : Nat) (seen rest : Bytes) :
    pieces start pos seen (double s ++ rest) = pieces start (pos + (double s).length) (s.reverse ++ seen) rest := by
  induction s generalizing pos seen with
  | nil => rfl
  | cons c s ih =>
    by_cases hc : c = Byte.semicolon
    · subst hc
      have hdouble : double (Byte.semicolon :: s) = Byte.semicolon :: Byte.semicolon :: double s := rfl
      rw [hdouble, List.cons_append, List.cons_append, pieces, if_neg (by simp), if_pos rfl, ih,
        List.reverse_cons, List.append_assoc]
      congr 1
      simp only [List.length_cons]
      omega
    · rw [double_cons_of_ne hc, List.cons_append, pieces_cons_of_ne hc, ih, List.reverse_cons, List.append_assoc,
        List.length_cons, Nat.add_assoc, Nat.add_comm 1]
      rfl

theorem pieces_semicolon (hc : c ≠ Byte.semicolon) (start pos : Nat) (seen s : Bytes) :
    pieces start pos seen (Byte.semicolon :: c :: s) =
      (start, pos, seen.reverse) :: pieces (pos + 1) (pos + 1) [] (c :: s) := by
  rw [pieces, if_neg (by simp), if_neg hc]

theorem texts_pieces_join (s : Bytes) (texts : List Bytes) (start pos : Nat) :
    (pieces start pos [] (Bytes.join (utf8 "; ") ((s :: texts).map double))).map (fun p => p.2.2) =
      s :: texts.map (Byte.space :: ·) := by
  induction texts generalizing s start pos with
  | nil =>
    have hpieces := pieces_double s start pos [] []
    rw [List.append_nil, List.append_nil] at hpieces
    rw [List.map_singleton, Bytes.join, hpieces]
    exact congrArg (fun s => [s]) s.reverse_reverse
  | cons t texts ih =>
    have hjoin : Bytes.join (utf8 "; ") ((s :: t :: texts).map double) =
        double s ++ Byte.semicolon :: Byte.space :: Bytes.join (utf8 "; ") ((t :: texts).map double) :=
      List.append_assoc (double s) (utf8 "; ") _
    have hnext : Byte.space :: Bytes.join (utf8 "; ") ((t :: texts).map double) =
        Bytes.join (utf8 "; ") (((Byte.space :: t) :: texts).map double) := by
      rw [List.map_cons, List.map_cons, double_cons_of_ne (by decide)]
      cases texts <;> rfl
    rw [hjoin, pieces_double, pieces_semicolon (by decide), hnext, List.map_cons, ih, List.append_nil,
      List.reverse_reverse]
    rfl

theorem value_trim (t : Token) : t.trim.value = Bytes.trimBlank t.value := by
  have hlead : t.value.drop (t.value.takeWhile Byte.isBlank).length = t.value.dropWhile Byte.isBlank := by
    have hsplit := List.takeWhile_append_dropWhile (p := Byte.isBlank) (l := t.value)
    have hdrop : (t.value.takeWhile Byte.isBlank ++ t.value.dropWhile Byte.isBlank).drop
        (t.value.takeWhile Byte.isBlank).length = t.value.dropWhile Byte.isBlank := List.drop_left
    rwa [hsplit] at hdrop
  have hprefix : Bytes.trimBlank t.value <+: t.value.dropWhile Byte.isBlank := List.rdropWhile_prefix _ _
  rw [Token.trim, Token.slice, hlead, Nat.add_sub_cancel_left]
  exact List.prefix_iff_eq_take.1 hprefix |>.symm

theorem IsTrimmed.trimBlank_append (h : IsTrimmed s) (hblanks : ∀ b ∈ blanks, Byte.isBlank b = true) :
    Bytes.trimBlank (blanks ++ s) = s := by
  have hfront : ∀ {s : Bytes}, (∀ b ∈ s.head?, Byte.isBlank b = false) → s.dropWhile Byte.isBlank = s := by
    intro s hs
    cases s with
    | nil => rfl
    | cons b s => rw [List.dropWhile_cons_of_neg (by simp [hs b rfl])]
  rw [Bytes.trimBlank, Bytes.trimWhile, List.dropWhile_append_of_pos hblanks, hfront h.head,
    hfront (by rw [List.head?_reverse]; exact h.last), List.reverse_reverse]

theorem map_value_split (t : Token) : (split t).map Token.value =
    (((pieces 0 0 [] t.value).map fun p => p.2.2).map Bytes.trimBlank).filter fun s => !s.isEmpty := by
  have htrim : ((pieces 0 0 [] t.value).map fun p => ({ t.slice p.1 p.2.1 with value := p.2.2 }).trim).map Token.value =
      ((pieces 0 0 [] t.value).map fun p => p.2.2).map Bytes.trimBlank := by
    rw [List.map_map, List.map_map]
    exact List.map_congr_left fun p _ => value_trim _
  rw [← htrim, List.filter_map]
  rfl

theorem map_value_split_join {texts : List Bytes} (h : ∀ s ∈ texts, IsTrimmed s) (hne : texts ≠ [])
    (ht : t.value = Bytes.join (utf8 "; ") (texts.map double)) : (split t).map Token.value = texts := by
  obtain ⟨s, more, rfl⟩ := List.exists_cons_of_ne_nil hne
  have htrimmed : (s :: more.map (Byte.space :: ·)).map Bytes.trimBlank = s :: more := by
    rw [List.map_cons, List.map_map]
    congr 1
    · exact (h s List.mem_cons_self).trimBlank_append (List.forall_mem_nil _)
    · refine (List.map_congr_left fun s hs => ?_).trans (List.map_id more)
      exact (h s (List.mem_cons_of_mem _ hs)).trimBlank_append (List.forall_mem_singleton.2 (by decide))
  rw [map_value_split, ht, texts_pieces_join, htrimmed]
  exact List.filter_eq_self.2 fun s hs => by simpa using (h s hs).ne_nil

/-! ### Definitions -/

theorem isIdentifierPart_of_mem (h : Bytes.isIdentifier name = true) :
    ∀ b ∈ name, Byte.isIdentifierPart b = true := by
  cases name with
  | nil => cases h
  | cons c name =>
    rw [Bytes.isIdentifier, Bool.and_eq_true, List.all_eq_true] at h
    intro b hb
    rcases List.mem_cons.1 hb with rfl | hb
    · rw [Byte.isIdentifierPart, h.1, Bool.true_or]
    · exact h.2 b hb

theorem readName?_append {rest : Bytes} (h : Bytes.isIdentifier name = true)
    (hrest : ∀ b ∈ rest.head?, Byte.isIdentifierPart b = false) : readName? (name ++ rest) = some (name, rest) := by
  have hpart := isIdentifierPart_of_mem h
  cases name with
  | nil => cases h
  | cons c name =>
    rw [Bytes.isIdentifier, Bool.and_eq_true] at h
    have hsplit : ((c :: name) ++ rest).takeWhile Byte.isIdentifierPart = c :: name ∧
        ((c :: name) ++ rest).dropWhile Byte.isIdentifierPart = rest := by
      rw [List.takeWhile_append_of_pos hpart, List.dropWhile_append_of_pos hpart]
      cases rest with
      | nil => simp
      | cons b rest => simp [hrest b rfl]
    change (if Byte.isIdentifierStart c then some (((c :: name) ++ rest).takeWhile Byte.isIdentifierPart,
      ((c :: name) ++ rest).dropWhile Byte.isIdentifierPart) else none) = _
    rw [if_pos h.1, hsplit.1, hsplit.2]

theorem skipBlanks_append (hblanks : ∀ b ∈ blanks, Byte.isBlank b = true)
    (hs : ∀ b ∈ s.head?, Byte.isBlank b = false) : skipBlanks (blanks ++ s) = s := by
  rw [skipBlanks, List.dropWhile_append_of_pos hblanks]
  cases s with
  | nil => rfl
  | cons b s => rw [List.dropWhile_cons_of_neg (by simp [hs b rfl])]

theorem head_identifier_append (h : Bytes.isIdentifier name = true) (rest : Bytes) :
    ∀ b ∈ (name ++ rest).head?, Byte.isBlank b = false := by
  cases name with
  | nil => cases h
  | cons c name =>
    rw [Bytes.isIdentifier, Bool.and_eq_true] at h
    rintro b ⟨⟩
    rw [← Bool.not_eq_true]
    intro hblank
    simp only [Byte.isBlank, Bool.or_eq_true, beq_iff_eq] at hblank
    rcases hblank with (((rfl | rfl) | rfl) | rfl) | rfl <;> exact absurd h.1 (by decide)

theorem join_cons_eq_flatMap (sep s : Bytes) (ss : List Bytes) :
    Bytes.join sep (s :: ss) = s ++ ss.flatMap (sep ++ ·) := by
  induction ss generalizing s with
  | nil => rw [Bytes.join, List.flatMap_nil, List.append_nil]
  | cons t ss ih =>
    have hjoin : Bytes.join sep (s :: t :: ss) = s ++ sep ++ Bytes.join sep (t :: ss) := rfl
    rw [hjoin, ih, List.flatMap_cons, List.append_assoc, List.append_assoc]

/-- The names of a tuple after the first, up to the closing parenthesis. -/
def tupleRest (gap : Bytes) (names : List Bytes) : Bytes :=
  names.flatMap ((Byte.comma :: gap) ++ ·) ++ [Byte.rightParen]

theorem tupleText_cons (gap name : Bytes) (names : List Bytes) :
    tupleText gap (name :: names) = Byte.leftParen :: (name ++ tupleRest gap names) := by
  rw [tupleText, join_cons_eq_flatMap, tupleRest, List.append_assoc]

theorem tupleRest_cons (gap name : Bytes) (names : List Bytes) :
    tupleRest gap (name :: names) = Byte.comma :: (gap ++ (name ++ tupleRest gap names)) := by
  simp [tupleRest]

theorem length_le_length_tupleRest (gap : Bytes) (names : List Bytes) :
    names.length ≤ (tupleRest gap names).length := by
  induction names with
  | nil => exact Nat.zero_le _
  | cons name names ih =>
    rw [tupleRest_cons, List.length_cons, List.length_cons, List.length_append, List.length_append]
    omega

theorem head_tupleRest_append (gap : Bytes) (names : List Bytes) (rest : Bytes) :
    ∀ b ∈ (tupleRest gap names ++ rest).head?, Byte.isIdentifierPart b = false := by
  cases names with
  | nil =>
    rintro b ⟨⟩
    decide
  | cons name names =>
    rintro b ⟨⟩
    decide

section Tuples

variable {gap : Bytes} (hgap : ∀ b ∈ gap, Byte.isBlank b = true)
variable {names : List Bytes}
include hgap

theorem readNames?_tupleRest (h : ∀ name ∈ names, Bytes.isIdentifier name = true) {fuel : Nat}
    (hfuel : names.length < fuel) (rest : Bytes) :
    readNames? fuel (tupleRest gap names ++ rest) = some (names, rest) := by
  induction names generalizing fuel with
  | nil =>
    obtain ⟨fuel, rfl⟩ := Nat.exists_eq_add_one_of_ne_zero (Nat.ne_of_gt hfuel)
    rfl
  | cons name names ih =>
    obtain ⟨fuel, rfl⟩ := Nat.exists_eq_add_one_of_ne_zero (Nat.ne_of_gt (Nat.zero_lt_of_lt hfuel))
    obtain ⟨hname, hnames⟩ := List.forall_mem_cons.1 h
    have hrest := ih hnames (Nat.lt_of_succ_lt_succ hfuel)
    have hread : readName? (skipBlanks (gap ++ (name ++ (tupleRest gap names ++ rest)))) =
        some (name, tupleRest gap names ++ rest) := by
      rw [skipBlanks_append hgap (head_identifier_append hname _),
        readName?_append hname (head_tupleRest_append gap names rest)]
    have hcomma : ∀ s, skipBlanks (Byte.comma :: s) = Byte.comma :: s := fun _ => rfl
    rw [tupleRest_cons, List.cons_append, List.append_assoc, List.append_assoc, readNames?, hcomma]
    dsimp only
    rw [if_neg (by decide), if_pos rfl, hread]
    dsimp only
    rw [hrest]
    rfl

theorem readTargets?_tupleText (hne : names ≠ []) (h : ∀ name ∈ names, Bytes.isIdentifier name = true) (rest : Bytes) :
    readTargets? (tupleText gap names ++ rest) = some (names, rest) := by
  obtain ⟨name, names, rfl⟩ := List.exists_cons_of_ne_nil hne
  obtain ⟨hname, hnames⟩ := List.forall_mem_cons.1 h
  have hfirst : readName? (skipBlanks (name ++ (tupleRest gap names ++ rest))) =
      some (name, tupleRest gap names ++ rest) := by
    rw [← List.nil_append (name ++ _), skipBlanks_append (List.forall_mem_nil _) (head_identifier_append hname _),
      readName?_append hname (head_tupleRest_append gap names rest)]
  have hfuel : names.length < (tupleRest gap names ++ rest).length + 1 := by
    have hlength := length_le_length_tupleRest gap names
    rw [List.length_append]
    omega
  have hparen : ∀ s, readName? (Byte.leftParen :: s) = none := fun _ => rfl
  rw [tupleText_cons, List.cons_append, List.append_assoc]
  unfold readTargets?
  rw [hparen]
  dsimp only
  rw [if_pos rfl, hfirst]
  simp only [Option.bind_eq_bind, Option.bind_some]
  rw [readNames?_tupleRest hgap hnames hfuel]
  rfl

theorem readTargets?_namesText (hne : names ≠ []) (h : ∀ name ∈ names, Bytes.isIdentifier name = true)
    (parenthesized : Bool) (rest : Bytes) :
    readTargets? (namesText gap parenthesized names ++ Byte.space :: rest) = some (names, Byte.space :: rest) := by
  unfold namesText
  split
  · next name =>
    split
    · exact readTargets?_tupleText hgap hne h _
    · have hname := h name List.mem_cons_self
      unfold readTargets?
      rw [readName?_append hname (by rintro b ⟨⟩; decide)]
  · exact readTargets?_tupleText hgap hne h _

end Tuples

theorem head_namesText_append (gap : Bytes) {names : List Bytes} (h : ∀ name ∈ names, Bytes.isIdentifier name = true)
    (parenthesized : Bool) (rest : Bytes) :
    ∀ b ∈ (namesText gap parenthesized names ++ rest).head?, Byte.isBlank b = false := by
  have hparen : Byte.isBlank Byte.leftParen = false := by decide
  unfold namesText
  split
  · next name =>
    split
    · rintro b ⟨⟩
      exact hparen
    · exact head_identifier_append (h name List.mem_cons_self) rest
  · rintro b ⟨⟩
    exact hparen

theorem afterBlank?_space (whole : Bytes) (hne : s ≠ []) (hs : ∀ b ∈ s.head?, Byte.isBlank b = false) :
    afterBlank? whole (Byte.space :: s) = some (whole.length - s.length) := by
  have hskip : skipBlanks (Byte.space :: s) = s :=
    skipBlanks_append (List.forall_mem_singleton.2 (by decide) : ∀ b ∈ [Byte.space], Byte.isBlank b = true) hs
  rw [afterBlank?, hskip, if_neg]
  simpa using hne

theorem drop_length_append_sub (p s : Bytes) : (p ++ s).drop ((p ++ s).length - s.length) = s := by
  rw [List.length_append, Nat.add_sub_cancel, List.drop_left]

theorem afterWord?_append (word : Bytes) (hne : s ≠ []) (hs : ∀ b ∈ s.head?, Byte.isBlank b = false) :
    afterWord? word (word ++ Byte.space :: s) = some s := by
  have hprefix : word.isPrefixOf (word ++ Byte.space :: s) = true := by simp
  rw [afterWord?, if_pos hprefix, List.drop_left, afterBlank?_space _ hne hs, Option.map_some, List.append_cons,
    drop_length_append_sub]

section Writing

variable {gap : Bytes} (hgap : ∀ b ∈ gap, Byte.isBlank b = true) (parenthesized : Bool) {a : Assignment Bytes}
  (ha : IsWritable a)
include hgap ha

/-- A definition is read as it was written, whatever its expression looks like. -/
theorem readDefinition?_targetsText :
    readDefinition? (targetsText gap parenthesized a ++ a.expr) =
      some (a.names, (targetsText gap parenthesized a).length, a.isGlobal) := by
  generalize hbody : namesText gap parenthesized a.names ++ Byte.space :: a.expr = body
  have htext : targetsText gap parenthesized a ++ a.expr =
      utf8 (if a.isGlobal then "global" else "local") ++ Byte.space :: body := by
    rw [targetsText, ← hbody]
    simp
  have hhead : ∀ b ∈ body.head?, Byte.isBlank b = false := by
    rw [← hbody]
    exact head_namesText_append gap ha.identifier parenthesized _
  have hne : body ≠ [] := by
    rw [← hbody]
    simp
  have hbinding : ∀ whole, readBinding? whole body = some (a.names, whole.length - a.expr.length) := by
    intro whole
    rw [readBinding?, ← hbody, readTargets?_namesText hgap ha.ne_nil ha.identifier]
    simp only [Option.bind_eq_bind, Option.bind_some]
    rw [afterBlank?_space whole ha.expr.ne_nil ha.expr.head]
    rfl
  have hlength : (targetsText gap parenthesized a ++ a.expr).length - a.expr.length =
      (targetsText gap parenthesized a).length := by
    rw [List.length_append, Nat.add_sub_cancel]
  rw [← hlength, htext]
  unfold readDefinition?
  cases hglobal : a.isGlobal with
  | false =>
    have hword := afterWord?_append (utf8 "local") hne hhead
    simp only [if_false, Bool.false_eq_true, hword, hbinding, Option.bind_eq_bind, Option.bind_some]
    rfl
  | true =>
    have hword := afterWord?_append (utf8 "global") hne hhead
    have hother : afterWord? (utf8 "local") (utf8 "global" ++ Byte.space :: body) = none := rfl
    simp only [if_true, hword, hother, hbinding, Option.bind_eq_bind, Option.bind_some, Option.bind_none]
    rfl

theorem semicolon_not_mem_targetsText : Byte.semicolon ∉ targetsText gap parenthesized a := by
  have hname : ∀ name ∈ a.names, Byte.semicolon ∉ name := by
    intro name hname hmem
    have hpart := isIdentifierPart_of_mem (ha.identifier name hname) _ hmem
    revert hpart
    decide
  have hblank : Byte.semicolon ∉ gap := by
    intro hmem
    have hblank := hgap _ hmem
    revert hblank
    decide
  have htuple : Byte.semicolon ∉ tupleText gap a.names := by
    obtain ⟨name, names, hnames⟩ := List.exists_cons_of_ne_nil ha.ne_nil
    rw [hnames] at hname ⊢
    rw [tupleText_cons, tupleRest]
    intro hmem
    simp only [List.mem_cons, List.mem_append, List.mem_flatMap, List.not_mem_nil, or_false] at hmem
    rcases hmem with h | h | ⟨name', hname', (h | h) | h⟩ | h
    · exact absurd h (by decide)
    · exact hname name List.mem_cons_self h
    · exact absurd h (by decide)
    · exact hblank h
    · exact hname name' (List.mem_cons_of_mem _ hname') h
    · exact absurd h (by decide)
  have hnames : Byte.semicolon ∉ namesText gap parenthesized a.names := by
    unfold namesText
    split
    · next name hsingle =>
      rw [hsingle] at hname htuple
      split
      · exact htuple
      · exact hname name List.mem_cons_self
    · exact htuple
  have hword : Byte.semicolon ∉ utf8 (if a.isGlobal then "global" else "local") := by
    cases a.isGlobal with
    | false => decide
    | true => decide
  rw [targetsText]
  intro hmem
  simp only [List.mem_append, List.mem_cons, List.not_mem_nil, or_false] at hmem
  rcases hmem with h | h | h | h
  · exact hword h
  · exact absurd h (by decide)
  · exact hnames h
  · exact absurd h (by decide)

omit hgap in
theorem isTrimmed_targetsText_append : IsTrimmed (targetsText gap parenthesized a ++ a.expr) where
  ne_nil := by simp [ha.expr.ne_nil]
  head := by
    cases hglobal : a.isGlobal with
    | false =>
      rw [targetsText, hglobal]
      rintro b ⟨⟩
      decide
    | true =>
      rw [targetsText, hglobal]
      rintro b ⟨⟩
      decide
  last := by
    rw [List.getLast?_append_of_ne_nil _ ha.expr.ne_nil]
    exact ha.expr.last

end Writing

theorem checkNames_eq_ok (t : Token) {names : List Bytes} (h : ∀ name ∈ names, name ∉ reservedNames) :
    checkNames t names = .ok () := by
  have hnone : names.find? reservedNames.contains = none := by
    rw [List.find?_eq_none]
    intro name hname
    simpa using h name hname
  rw [checkNames, hnone]

section Lists

variable {gap : Bytes} (hgap : ∀ b ∈ gap, Byte.isBlank b = true) (parenthesized : Bool) {as : List (Assignment Bytes)}
  (has : ∀ a ∈ as, IsWritable a)
include hgap has

theorem map_value_split_definitionsText (hne : as ≠ []) (ht : t.value = definitionsText gap parenthesized as) :
    (split t).map Token.value = as.map fun a => targetsText gap parenthesized a ++ a.expr := by
  have hdouble : (as.map fun a => targetsText gap parenthesized a ++ a.expr).map double =
      as.map fun a => targetsText gap parenthesized a ++ double a.expr := by
    rw [List.map_map]
    refine List.map_congr_left fun a ha => ?_
    exact double_append_of_not_mem (semicolon_not_mem_targetsText hgap parenthesized (has a ha)) a.expr
  refine map_value_split_join ?_ (by simpa using hne) (by rw [hdouble, ht, definitionsText])
  intro s hs
  obtain ⟨a, ha, rfl⟩ := List.mem_map.1 hs
  exact isTrimmed_targetsText_append parenthesized (has a ha)

theorem exists_mapM_readDefinition {parts : List Token}
    (h : parts.map Token.value = as.map fun a => targetsText gap parenthesized a ++ a.expr) :
    ∃ ds, (parts.mapM fun part =>
        match readDefinition? part.value with
        | none => throw (part.fault .language (utf8 "Invalid define syntax"))
        | some (names, i, isGlobal) => do
          checkNames part names
          return { names, expr := part.drop i, isGlobal : Definition }) = Except.ok ds ∧
      ds.map Definition.assignment = as := by
  induction as generalizing parts with
  | nil =>
    rw [List.map_nil, List.map_eq_nil_iff] at h
    subst h
    exact ⟨[], rfl, rfl⟩
  | cons a as ih =>
    obtain ⟨part, parts, rfl⟩ : ∃ part rest, parts = part :: rest := by
      cases parts with
      | nil => cases h
      | cons part rest => exact ⟨part, rest, rfl⟩
    obtain ⟨ha, has⟩ := List.forall_mem_cons.1 has
    rw [List.map_cons, List.map_cons, List.cons.injEq] at h
    obtain ⟨ds, hds, hassignments⟩ := ih has h.2
    refine ⟨⟨a.names, part.drop (targetsText gap parenthesized a).length, a.isGlobal⟩ :: ds, ?_, ?_⟩
    · rw [List.mapM_cons, h.1, readDefinition?_targetsText hgap parenthesized ha, hds]
      dsimp only
      rw [checkNames_eq_ok part ha.unreserved]
      rfl
    · rw [List.map_cons, hassignments, Definition.assignment]
      dsimp only
      rw [Token.drop, h.1, List.drop_left]

end Lists

/-- Definitions are read back as they are written: the same names, texts and reaches in order. No clause list defines a
reserved name. -/
theorem definitions_definitionsText :
    (∀ (gap : Bytes) (parenthesized : Bool) (as : List (Assignment Bytes)) (t : Token),
      (∀ b ∈ gap, Byte.isBlank b = true) → as ≠ [] → (∀ a ∈ as, IsWritable a) →
      t.value = definitionsText gap parenthesized as →
      ∃ ds, definitions t = .ok ds ∧ ds.map Definition.assignment = as) ∧
    ∀ (t : Token) (ds : List Definition), definitions t = .ok ds →
      ∀ d ∈ ds, ∀ name ∈ d.names, name ∉ reservedNames := by
  refine ⟨fun gap parenthesized as t hgap hne has ht => ?_, fun t ds hds d hd =>
    not_mem_reservedNames_of_definitions hds hd⟩
  have hsplit := map_value_split_definitionsText hgap parenthesized has hne ht
  obtain ⟨ds, hds, hassignments⟩ := exists_mapM_readDefinition hgap parenthesized has hsplit
  refine ⟨ds, ?_, hassignments⟩
  have hsome : ds.isEmpty = false := by
    cases ds with
    | nil => exact absurd hassignments.symm hne
    | cons d ds => rfl
  refine (congrArg (fun parsed => parsed >>= _) hds).trans ?_
  change (if ds.isEmpty then _ else _) = _
  rw [hsome]
  rfl

theorem definitions_definitionsText_semicolons :
    let as : List (Assignment Bytes) :=
      [⟨[utf8 "a"], utf8 "local b; ;", false⟩, ⟨[utf8 "local", utf8 "b"], utf8 "(c) ;;d", true⟩]
    let t : Token := { value := utf8 "local a local b;; ;;; global (local, b) (c) ;;;;d" }
    t.value = definitionsText (utf8 " ") false as ∧
      ∃ ds, definitions t = .ok ds ∧ ds.map Definition.assignment = as := by
  intro as t
  have htext : t.value = definitionsText (utf8 " ") false as := by decide +kernel
  have hwritable : ∀ a ∈ as, IsWritable a := by
    intro a ha
    simp only [as, List.mem_cons, List.not_mem_nil, or_false] at ha
    rcases ha with rfl | rfl
    · exact ⟨by decide, by decide, by decide, isTrimmed_of_all (by decide) (by decide)⟩
    · exact ⟨by decide, by decide, by decide, isTrimmed_of_all (by decide) (by decide)⟩
  have hgap : ∀ b ∈ utf8 " ", Byte.isBlank b = true := List.all_eq_true.1 (by decide)
  exact ⟨htext, definitions_definitionsText.1 (utf8 " ") false as t hgap (by simp [as]) hwritable htext⟩

end PageTemplate.Clause
