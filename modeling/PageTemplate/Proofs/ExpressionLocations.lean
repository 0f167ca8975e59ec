import PageTemplate.Proofs.ClauseText
import PageTemplate.Proofs.Expression.Fragments

/-!
Where the expressions of a template stand. An expression is cut from a token, and the tokens of the tree are placed in
the source; so its position is that of its first byte, and its text is what stands there, but for doubled semicolons in
lists of clauses. Interpolations are found behind the bytes that open them unless they are just a dollar: then the
dollar of the opening is found.
-/

namespace PageTemplate

open Markup (Token)

namespace Expression

/-- A balanced source between braces is found where it begins, unless it is a dollar. -/
theorem indexOf?_braced {v : Bytes} (hv : v ≠ []) (heven : hasEvenBraces v = true) :
    Bytes.indexOf? v (Byte.dollar :: Byte.leftBrace :: (v ++ [Byte.rightBrace])) =
      some (if v = [Byte.dollar] then 0 else 2) := by
  -- A source that begins as what opens it followed by itself has no closing brace, so it has no opening one.
  have hoverlap : ∀ {w : Bytes}, w ≠ [] → Byte.rightBrace ∉ w → v <+: w ++ (v ++ [Byte.rightBrace]) →
      v <+: w ++ v ∧ Byte.leftBrace ∉ v := by
    intro w hw hclosing hbegins
    have hself : v <+: w ++ v := by
      refine List.prefix_of_prefix_length_le hbegins ⟨[Byte.rightBrace], by simp⟩ ?_
      simp
    refine ⟨hself, fun hopening => ?_⟩
    have hnone : v.count Byte.rightBrace = 0 :=
      List.count_eq_zero.2 fun hmem => hclosing (Bytes.mem_of_isPrefix_append_self hw hself hmem)
    have hsome := List.count_pos_iff.2 hopening
    rw [hasEvenBraces, beq_iff_eq] at heven
    omega
  split
  · next hdollar =>
    rw [hdollar]
    decide
  · next hdollar =>
    have hfirst : ¬ v <+: Byte.dollar :: Byte.leftBrace :: (v ++ [Byte.rightBrace]) := by
      intro hbegins
      obtain ⟨hself, hopening⟩ := hoverlap (w := [Byte.dollar, Byte.leftBrace]) (by simp) (by decide) hbegins
      obtain ⟨c, v, rfl⟩ := List.exists_cons_of_ne_nil hv
      obtain ⟨rfl, hrest⟩ := List.cons_prefix_cons.1 hself
      cases v with
      | nil => exact hdollar rfl
      | cons d v => simp [(List.cons_prefix_cons.1 hrest).1] at hopening
    have hsecond : ¬ v <+: Byte.leftBrace :: (v ++ [Byte.rightBrace]) := by
      intro hbegins
      obtain ⟨hself, hopening⟩ := hoverlap (w := [Byte.leftBrace]) (by simp) (by decide) hbegins
      obtain ⟨c, v, rfl⟩ := List.exists_cons_of_ne_nil hv
      simp [(List.cons_prefix_cons.1 hself).1] at hopening
    rw [Bytes.indexOf?_cons hfirst, Bytes.indexOf?_cons hsecond, Bytes.indexOf?_of_isPrefix (List.prefix_append _ _)]
    rfl

end Expression

/-- An interpolated expression stands behind the bytes that open it, unless it is a dollar between braces. -/
inductive Interpolates (source : Bytes) (t : Token) : Prop where
  | braced (i : Nat) : Byte.dollar :: Byte.leftBrace :: (t.value ++ [Byte.rightBrace]) <+: source.drop i →
    t.pos = (if t.value = [Byte.dollar] then i else i + 2) → Interpolates source t
  | short (i : Nat) : Byte.dollar :: t.value <+: source.drop i → t.pos = i + 1 → Interpolates source t

namespace Builder

open Expression (Fragment)

variable {t : Token} {f : Fragment}
variable {source : Bytes}

theorem fragmentToken_of_indexOf? (ht : t.Placed source) {enclosed : Bytes}
    (hdrop : enclosed <+: t.value.drop f.offset) (hstop : f.stop = f.offset + enclosed.length) {i : Nat}
    (hindex : Bytes.indexOf? f.value enclosed = some i) :
    (fragmentToken t f).Placed source ∧ (fragmentToken t f).value = f.value ∧
      (fragmentToken t f).pos = t.pos + f.offset + i := by
  have hwhole : (t.slice f.offset f.stop).value = enclosed := by
    change (t.value.drop f.offset).take (f.stop - f.offset) = enclosed
    rw [hstop, Nat.add_sub_cancel_left]
    exact (List.prefix_iff_eq_take.1 hdrop).symm
  have heq : fragmentToken t f = (t.slice f.offset f.stop).slice i (i + f.value.length) := by
    unfold fragmentToken
    dsimp only
    rw [hwhole, hindex]
  rw [heq]
  refine ⟨(ht.slice _ _).slice _ _, ?_, rfl⟩
  change ((t.slice f.offset f.stop).value.drop i).take (i + f.value.length - i) = f.value
  rw [hwhole, Nat.add_sub_cancel_left]
  exact (List.prefix_iff_eq_take.1 (Bytes.isPrefix_drop_of_indexOf? hindex)).symm

theorem value_fragmentToken_of_eq_nil (h : f.value = []) : (fragmentToken t f).value = [] := by
  unfold fragmentToken
  dsimp only
  split
  · simp [Token.slice, h]
  · exact h

/-- The expressions of an interpolated text stand where their tokens say, unless they are just a dollar. -/
theorem interpolates_fragmentToken (ht : t.Placed source) {Good : Bytes → Bytes → Prop}
    (h : f.CutFrom Good false t.value) (hne : f.value ≠ []) :
    (fragmentToken t f).Placed source ∧ Interpolates source (fragmentToken t f) := by
  -- What encloses the expression stands in the source as it stands in the text.
  have hsource : ∀ {enclosed : Bytes}, enclosed <+: t.value.drop f.offset → enclosed <+: source.drop (t.pos + f.offset) :=
    fun henclosed => henclosed.trans (ht.drop f.offset).isPrefix
  cases h with
  | braced rest hdrop hstop heven _ =>
    have henclosed : Byte.dollar :: Byte.leftBrace :: (f.value ++ [Byte.rightBrace]) <+: t.value.drop f.offset :=
      ⟨rest, by rw [hdrop]; simp⟩
    obtain ⟨hplaced, hvalue, hpos⟩ :=
      fragmentToken_of_indexOf? ht henclosed (by simp [hstop, Nat.add_assoc]) (Expression.indexOf?_braced hne heven)
    refine ⟨hplaced, .braced (t.pos + f.offset) ?_ ?_⟩
    · rw [hvalue]
      exact hsource henclosed
    · rw [hpos, hvalue]
      split <;> rfl
  | short s name hdrop hname hstop hvalue =>
    obtain ⟨hbegins, hhead⟩ := Expression.prefix_of_dottedName? hname
    obtain rfl : f.value = name := hvalue
    have henclosed : Byte.dollar :: f.value <+: t.value.drop f.offset := by
      rw [hdrop]
      exact List.cons_prefix_cons.2 ⟨rfl, hbegins⟩
    have hfirst : ¬ f.value <+: Byte.dollar :: f.value := by
      intro hself
      obtain ⟨c, v, hv⟩ := List.exists_cons_of_ne_nil hne
      rw [hv] at hself hhead
      exact hhead (congrArg some (List.cons_prefix_cons.1 hself).1)
    have hindex : Bytes.indexOf? f.value (Byte.dollar :: f.value) = some 1 := by
      rw [Bytes.indexOf?_cons hfirst, Bytes.indexOf?_of_isPrefix List.prefix_rfl]
      rfl
    obtain ⟨hplaced, hvalue', hpos⟩ := fragmentToken_of_indexOf? ht henclosed (by simp [hstop, Nat.add_assoc]) hindex
    refine ⟨hplaced, .short (t.pos + f.offset) ?_ hpos⟩
    rw [hvalue']
    exact hsource henclosed

end Builder

/-! ### The expressions of a template -/

namespace Node

variable {ε : Type}

/-- The expressions of the node stand in an interpolated text. -/
def IsInterpolated : Node ε → Prop
  | .interpolation _ _ => True
  | .attr a =>
    match a.value with
    | .interpolated _ _ => True
    | _ => False
  | _ => False

/-- The expressions of the node stand in a list of clauses, as definitions or attribute values. -/
def TakesClauses : Node ε → Prop
  | .define _ _ | .attributeMap _ _ => True
  | .attr a =>
    match a.value with
    | .interpolated _ _ => False
    | _ => True
  | _ => False

end Node

/-- The token of an expression stands in the source where it says: its first byte and its text, with doubled semicolons
in a list of clauses; an interpolated expression stands behind what opens it. -/
structure Located (source : Bytes) (n : Node Expr) (t : Token) : Prop where
  source_eq : t.source = source
  first : source[t.pos]? = t.value.head?
  text : t.value <+: source.drop t.pos ∨ n.TakesClauses ∧
    ∃ raw, raw <+: source.drop t.pos ∧ Clause.HasDoubled raw ∧ t.value = Clause.undouble raw
  behind : n.IsInterpolated → Interpolates source t

theorem getElem?_of_isPrefix_drop {α : Type} {l source : List α} {i : Nat} (hne : l ≠ []) (h : l <+: source.drop i) :
    source[i]? = l.head? := by
  obtain ⟨a, l, rfl⟩ := List.exists_cons_of_ne_nil hne
  obtain ⟨rest, hrest⟩ := h
  rw [← List.head?_drop, ← hrest]
  rfl

namespace Located

variable {source : Bytes} {n : Node Expr} {t : Token}

theorem of_placed (h : t.Placed source) (hne : t.value ≠ []) (hbehind : n.IsInterpolated → Interpolates source t) :
    Located source n t :=
  ⟨h.source_eq, getElem?_of_isPrefix_drop hne h.isPrefix, .inl h.isPrefix, hbehind⟩

theorem of_undoubled (h : Clause.Undoubled source t) (hne : t.value ≠ []) (hclauses : n.TakesClauses)
    (hn : ¬ n.IsInterpolated) : Located source n t := by
  obtain ⟨hsource, raw, hraw, hvalue⟩ := h
  have hrawne : raw ≠ [] := by
    rintro rfl
    exact hne hvalue
  have hfirst : source[t.pos]? = t.value.head? := by
    rw [hvalue, Clause.head?_undouble]
    exact getElem?_of_isPrefix_drop hrawne hraw
  refine ⟨hsource, hfirst, ?_, fun h => absurd h hn⟩
  by_cases hdoubled : Clause.HasDoubled raw
  · exact .inr ⟨hclauses, raw, hraw, hdoubled, hvalue⟩
  · rw [Clause.undouble_eq_self hdoubled] at hvalue
    exact .inl (hvalue ▸ hraw)

end Located

namespace Builder

variable {source : Bytes}
variable {r : Expression.Registry}

theorem Whole.placed {t t' : Token} (ht : t.Placed source) (h : Whole t t') : t'.Placed source := by
  cases h with
  | trimmed => exact ht.trim
  | substitution =>
    unfold Clause.substitution
    dsimp only
    split
    · exact ht.trim.drop _
    · exact ht.trim.drop _
    · exact ht.trim
  | iteration h =>
    unfold Clause.iteration at h
    dsimp only at h
    split at h
    · cases h
    · next names i _ =>
      cases hnames : Clause.checkNames t.trim names with
      | error f =>
        rw [hnames] at h
        cases h
      | ok _ =>
        rw [hnames] at h
        cases h
        exact ht.trim.drop i

theorem Listed.undoubled {t t' : Token} (ht : t.Placed source) (h : Listed t t') :
    Clause.Undoubled source t' := by
  cases h with
  | definition h hd => exact Clause.undoubled_of_definitions ht h hd
  | entry h hentry => exact Clause.undoubled_of_attributes ht h hentry

theorem ReadOff.located (hr : r.defaultType ≠ utf8 "path") {n : Node Expr}
    (h : ReadOff r (Token.Placed source) n) {e : Expr} (he : e ∈ n.reads) (hne : e.token.value ≠ []) :
    Located source n e.token := by
  obtain ⟨_, t, ht, hcuts⟩ := h.exprs e he
  have hwhole : ∀ {n : Node Expr}, ¬ n.IsInterpolated → Whole t e.token → Located source n e.token :=
    fun hn hcut => .of_placed (hcut.placed ht) hne fun h => absurd h hn
  have hlisted : ∀ {n : Node Expr}, n.TakesClauses → ¬ n.IsInterpolated → Listed t e.token → Located source n e.token :=
    fun hclauses hn hcut => .of_undoubled (hcut.undoubled ht) hne hclauses hn
  have hinterpolated : ∀ {n : Node Expr}, Interpolated r t e.token → Located source n e.token := by
    intro n hcut
    generalize e.token = t' at hcut hne
    cases hcut with
    | fragment hfs hf hexpression =>
      have hcut := (Expression.covering_fragments hfs).expression _ hf hexpression
      have hslashes : (r.defaultType == utf8 "path") = false := by simpa using hr
      rw [hslashes] at hcut
      have hplaced := interpolates_fragmentToken ht hcut fun hnil => hne (value_fragmentToken_of_eq_nil hnil)
      exact .of_placed hplaced.1 hne fun _ => hplaced.2
  cases n with
  | interpolation _ _ => exact hinterpolated hcuts
  | attr a =>
    cases hvalue : a.value with
    | interpolated _ _ =>
      simp only [Cuts, hvalue] at hcuts
      exact hinterpolated hcuts
    | _ =>
      simp only [Cuts, hvalue] at hcuts
      exact hlisted (by simp [Node.TakesClauses, hvalue]) (by simp [Node.IsInterpolated, hvalue]) hcuts
  | define _ _ | attributeMap _ _ => exact hlisted trivial id hcuts
  | _ => exact hwhole id hcuts

theorem sound_located (hr : r.defaultType ≠ utf8 "path") {filename : Bytes}
    {tree : List Markup.Node} (hparse : Markup.parse source filename = .ok tree) :
    Sound r (· ∈ Markup.elementHeads tree) (Token.Placed source) (fun _ => True) fun n =>
      ∀ e ∈ n.reads, e.source = e.token.value ∧ (e.token.value ≠ [] → Located source n e.token) where
  unlocated _ := trivial
  compiling _ _ _ _ := trivial
  splitting _ _ _ _ := trivial
  values hhead := Markup.placed_of_mem_elementHeads hparse hhead
  other _ hread e he := ⟨(hread.exprs e he).1, hread.located hr he⟩
  startTag _ _ _ _ _ _ he := by cases he
  writtenTag _ _ _ _ _ _ he := by cases he

end Builder

theorem Located.site {source : Bytes} {n : Node Expr} {e : Expr} (h : Located source n e.token)
    (hne : e.token.value ≠ []) (m : Module) :
    (m.siteOf e).line = (lineColumn source e.token.pos).1 ∧ (m.siteOf e).column = (lineColumn source e.token.pos).2 := by
  have hsource : e.token.source.isEmpty = false := by
    have hfirst := h.first
    obtain ⟨b, rest, hvalue⟩ := List.exists_cons_of_ne_nil hne
    rw [hvalue, List.head?_cons] at hfirst
    rw [h.source_eq]
    cases source with
    | nil => cases hfirst
    | cons _ _ => rfl
  have hlocation : e.token.location = lineColumn source e.token.pos := by
    rw [Token.location, hsource, h.source_eq]
    rfl
  simp only [Module.siteOf, hlocation, and_self]

/-- In every template that parses and builds, each expression that is not empty is located in the source, wherever it is
used, and reported with the line and column of its position. Between braces this is its first byte, unless it is just a
dollar, when it is that of the interpolation. -/
theorem expressions_located {r : Expression.Registry} (hr : r.defaultType = utf8 "expr") {source filename : Bytes}
    {tree : List Markup.Node} (hparse : Markup.parse source filename = .ok tree) {m : Module}
    (hbuild : Builder.build r filename source tree = .ok m) {n : Node Expr}
    (hn : n ∈ m.body.all ∨ ∃ p ∈ m.macros, n ∈ p.2.all) {e : Expr} (he : e ∈ n.reads) (hne : e.source ≠ []) :
    e.source = e.token.value ∧ Located source n e.token ∧ (m.siteOf e).offset = e.token.pos ∧
      (m.siteOf e).line = (lineColumn source e.token.pos).1 ∧
      (m.siteOf e).column = (lineColumn source e.token.pos).2 := by
  have hS := Builder.sound_located (r := r) (by rw [hr]; decide) hparse
  have hmodule := (hS.build filename source (fun _ hhead => hhead) fun _ => Markup.placed_of_mem_textsOf hparse).1 m hbuild
  have hnode : ∀ e ∈ n.reads, e.source = e.token.value ∧ (e.token.value ≠ [] → Located source n e.token) := by
    rcases hn with hn | ⟨p, hp, hn⟩
    · exact hmodule.1 n hn
    · exact hmodule.2 p hp n hn
  obtain ⟨hsource, hlocated⟩ := hnode e he
  rw [hsource] at hne
  exact ⟨hsource, hlocated hne, rfl, (hlocated hne).site hne m⟩

/-- The positions of the expressions of a template, with their texts. -/
def positions (m : Module) : List (Bytes × Nat) :=
  (m.body.all.flatMap Node.reads).map fun e => (e.source, e.token.pos)

/-- A definition with a doubled semicolon is shorter than its source, and the expressions after it are still located. -/
theorem expressions_located_after_semicolons :
    let r := Expression.Registry.initial (utf8 "expr") []
    let source := utf8 "<p tal:define=\"a 'x;;y'; b a\">$b</p>"
    r.defaultType = utf8 "expr" ∧
    ∃ tree m, Markup.parse source [] = .ok tree ∧ Builder.build r [] source tree = .ok m ∧
      positions m = [(utf8 "'x;y'", 17), (utf8 "a", 27), (utf8 "b", 31)] ∧
      ∀ e ∈ m.body.all.flatMap Node.reads, ∃ n ∈ m.body.all, e ∈ n.reads ∧ e.source ≠ [] ∧ Located source n e.token := by
  intro r source
  obtain ⟨tree, m, hparse, hbuild, hpositions⟩ : ∃ tree m, Markup.parse source [] = .ok tree ∧
      Builder.build r [] source tree = .ok m ∧ positions m = [(utf8 "'x;y'", 17), (utf8 "a", 27), (utf8 "b", 31)] :=
    exists_module_of_toOption r source positions (by decide +kernel)
  refine ⟨rfl, tree, m, hparse, hbuild, hpositions, fun e he => ?_⟩
  have hne : e.source ≠ [] := by
    have hmem : (e.source, e.token.pos) ∈ positions m := List.mem_map.2 ⟨e, he, rfl⟩
    have hall : ∀ p ∈ positions m, p.1 ≠ [] := by
      rw [hpositions]
      decide
    exact hall _ hmem
  obtain ⟨n, hn, he⟩ := List.mem_flatMap.1 he
  exact ⟨n, hn, he, hne, (expressions_located rfl hparse hbuild (.inl hn) he hne).2.1⟩

/-- A dollar between braces is reported where the interpolation begins, and not two columns further on. -/
theorem dollar_reported_before_braces :
    let r := Expression.Registry.initial (utf8 "expr") []
    let source := utf8 "$\x7b$\x7d"
    ∃ tree m, Markup.parse source [] = .ok tree ∧ Builder.build r [] source tree = .ok m ∧
      (m.body.all.flatMap Node.reads).map (fun e => ((m.siteOf e).expression, (m.siteOf e).line, (m.siteOf e).column)) =
        [(utf8 "$", 1, 1)] ∧
      lineColumn source 2 = (1, 3) := by
  intro r source
  obtain ⟨tree, m, hparse, hbuild, hsites⟩ := exists_module_of_toOption r source
    (fun m => (m.body.all.flatMap Node.reads).map fun e =>
      ((m.siteOf e).expression, (m.siteOf e).line, (m.siteOf e).column))
    (a := [(utf8 "$", 1, 1)]) (by decide +kernel)
  exact ⟨tree, m, hparse, hbuild, hsites, by decide⟩

end PageTemplate
