import Mathlib.Data.List.Infix
import PageTemplate.Proofs.Assoc
import PageTemplate.Proofs.Bytes
import PageTemplate.Proofs.Utf8
import PageTemplate.Translation

/-!
Messages as text. A message is written with a placeholder for each named block, its blank runs are collapsed, and the
placeholders are filled in. `Piece` keeps blocks and literal text apart, and `collapsed` says what collapsing does if
the blocks are solid. Filling in then gives the same, if the placeholders stay whole and the literal text has none in
it.
-/

namespace PageTemplate

variable {s : Bytes} {c : UInt8}

namespace Text

section Collapsing

variable {α : Type} (blank : α → Bool) (space : α)

/-- Collapsing in one pass: a gap between words is written when the next word begins. -/
def settle (seen gap : Bool) : List α → List α
  | [] => []
  | u :: us =>
    if blank u then settle seen true us
    else (if seen && gap then [space] else []) ++ u :: settle true false us

variable {blank}

@[simp] theorem settle_blank {u : α} (hu : blank u = true) (seen gap : Bool) (us : List α) :
    settle blank space seen gap (u :: us) = settle blank space seen true us := by
  rw [settle, if_pos hu]

@[simp] theorem settle_solid {u : α} (hu : blank u = false) (seen gap : Bool) (us : List α) :
    settle blank space seen gap (u :: us) =
      (if seen && gap then [space] else []) ++ u :: settle blank space true false us := by
  rw [settle, if_neg (by simp [hu])]

theorem runs_ne_nil {acc : List α} (hacc : acc ≠ []) (us : List α) : runs blank acc us ≠ [] := by
  induction us generalizing acc with
  | nil => simp [runs, hacc]
  | cons u us ih =>
    rw [runs]
    split
    · simp [hacc]
    · exact ih (List.cons_ne_nil u acc)

theorem intercalate_cons (w : List α) (ws : List (List α)) :
    List.intercalate [space] (w :: ws) = w ++ if ws = [] then [] else space :: List.intercalate [space] ws := by
  cases ws <;> simp [List.intercalate]

theorem intercalate_runs (us : List α) :
    (∀ acc, acc ≠ [] →
      List.intercalate [space] (runs blank acc us) = acc.reverse ++ settle blank space true false us) ∧
    (∀ gap, List.intercalate [space] (runs blank [] us) = settle blank space false gap us) ∧
    settle blank space true true us =
      if runs blank [] us = [] then [] else space :: List.intercalate [space] (runs blank [] us) := by
  induction us with
  | nil => simp +contextual [runs, settle, List.intercalate]
  | cons u us ih =>
    obtain ⟨hword, hstart, hgap⟩ := ih
    by_cases hu : blank u = true
    · have hruns : runs blank [] (u :: us) = runs blank [] us := by simp [runs, hu]
      refine ⟨fun acc hacc => ?_, fun gap => ?_, ?_⟩
      · have hend : runs blank acc (u :: us) = acc.reverse :: runs blank [] us := by simp [runs, hu, hacc]
        rw [hend, intercalate_cons, settle_blank space hu, hgap]
      · rw [hruns, settle_blank space hu, hstart true]
      · rw [hruns, settle_blank space hu, hgap]
    · have hsolid : blank u = false := by simpa using hu
      have hruns : ∀ acc, runs blank acc (u :: us) = runs blank (u :: acc) us := by simp [runs, hsolid]
      refine ⟨fun acc _ => ?_, fun gap => ?_, ?_⟩
      · rw [hruns, hword (u :: acc) (List.cons_ne_nil u acc), settle_solid space hsolid]
        simp
      · rw [hruns, hword [u] (List.cons_ne_nil u []), settle_solid space hsolid]
        simp
      · rw [hruns, if_neg (runs_ne_nil (List.cons_ne_nil u []) us), hword [u] (List.cons_ne_nil u []),
          settle_solid space hsolid]
        simp

theorem settle_append {z : α} (hz : blank z = false) (gap : Bool) (us vs : List α) :
    settle blank space true gap (us ++ z :: vs) =
      settle blank space true gap (us ++ [z]) ++ settle blank space true false vs := by
  induction us generalizing gap with
  | nil => simp [settle_solid space hz, settle]
  | cons u us ih =>
    by_cases hu : blank u = true
    · simp only [List.cons_append, settle_blank space hu, ih]
    · have hsolid : blank u = false := by simpa using hu
      simp only [List.cons_append, settle_solid space hsolid, ih, List.append_assoc]

end Collapsing

def space : Glyph := .char ' '

theorem collapse_eq (s : Bytes) : collapse s = ofGlyphs (settle Glyph.isBlank space false false (glyphs s)) := by
  have hjoin : ∀ ws : List (List Glyph),
      Bytes.join [Byte.space] (ws.map ofGlyphs) = ofGlyphs (List.intercalate [space] ws) := by
    intro ws
    induction ws with
    | nil => rfl
    | cons w ws ih =>
      rw [intercalate_cons]
      cases ws with
      | nil => simp [Bytes.join]
      | cons v ws =>
        rw [List.map_cons, List.map_cons, Bytes.join, ← List.map_cons, ih]
        · have hspace : space.bytes = [Byte.space] := by decide
          simp [ofGlyphs, hspace]
        · simp
  rw [collapse, fields, hjoin, (intercalate_runs space (glyphs s)).2.1 false]

end Text

/-! ### Messages in pieces -/

open Text

/-- A piece of a message: literal text, or a named block with the text that it has rendered. -/
inductive Piece where
  | literal (s : Bytes)
  | block (name text : Bytes)
  deriving DecidableEq, Repr

namespace Piece

def plain : Piece → Bytes
  | literal s => s
  | block _ text => text

/-- The text of a piece in the message, where a placeholder stands for a block. -/
def shown : Piece → Bytes
  | literal s => s
  | block name _ => placeholder name

def block? : Piece → Option (Bytes × Bytes)
  | literal _ => none
  | block name text => some (name, text)

end Piece

/-- A message read unit by unit, where a block is one unit. -/
inductive Mark where
  | glyph (g : Glyph)
  | block (name text : Bytes)
  deriving DecidableEq, Repr

variable {pieces : List Piece} {marks : List Mark}

namespace Mark

def isBlank : Mark → Bool
  | glyph g => g.isBlank
  | block _ _ => false

/-- What stands for a unit in a text, given what stands for blocks. -/
def bytes (fill : Bytes → Bytes → Bytes) : Mark → Bytes
  | glyph g => g.bytes
  | block name text => fill name text

/-- The units of the placeholder if the mark is a block. -/
def units : Mark → List Glyph
  | glyph g => [g]
  | block name _ => glyphs (placeholder name)

end Mark

/-- The units of a message after some literal text. Literal texts next to each other are read as one. -/
def marksFrom : Bytes → List Piece → List Mark
  | pending, [] => (glyphs pending).map .glyph
  | pending, .literal s :: ps => marksFrom (pending ++ s) ps
  | pending, .block name text :: ps => (glyphs pending).map .glyph ++ .block name text :: marksFrom [] ps

/-- The message with single spaces in place of the blank runs outside its blocks, and none at the ends. -/
def collapsed (pieces : List Piece) : List Mark :=
  List.intercalate [.glyph space] (runs Mark.isBlank [] (marksFrom [] pieces))

/-- Collapsing a message leaves the placeholder alone, and it ends where it is meant to. -/
def Readable (name : Bytes) : Prop := Byte.rightBrace ∉ name ∧ collapse (placeholder name) = placeholder name

instance (name : Bytes) : Decidable (Readable name) := inferInstanceAs (Decidable (_ ∧ _))

theorem glyphs_placeholder (name : Bytes) :
    glyphs (placeholder name) = .char '$' :: (.char '{' :: glyphs name) ++ [.char '}'] := by
  have hstart : placeholder name = Byte.dollar :: Byte.leftBrace :: (name ++ Byte.rightBrace :: []) := by
    simp [placeholder, placeholderStart]
  rw [hstart, glyphs_cons (by decide), glyphs_cons (by decide), glyphs_append (by decide),
    glyphs_cons (by decide), glyphs]
  rfl

theorem glyphs_placeholder_append (name t : Bytes) :
    glyphs (placeholder name ++ t) = glyphs (placeholder name) ++ glyphs t := by
  have hend : placeholder name ++ t = (placeholderStart ++ name) ++ Byte.rightBrace :: t := by simp [placeholder]
  have hname : placeholder name = (placeholderStart ++ name) ++ Byte.rightBrace :: [] := by simp [placeholder]
  rw [hend, hname, glyphs_append (by decide), glyphs_append (by decide), glyphs_cons (by decide),
    glyphs_cons (by decide), glyphs]
  simp

theorem glyphs_shown (pieces : List Piece) (pending : Bytes) :
    glyphs (pending ++ pieces.flatMap Piece.shown) = (marksFrom pending pieces).flatMap Mark.units := by
  have hliteral : ∀ gs : List Glyph, (gs.map Mark.glyph).flatMap Mark.units = gs := by
    intro gs
    rw [List.flatMap_map]
    exact List.flatMap_singleton' gs
  induction pieces generalizing pending with
  | nil => rw [marksFrom, hliteral, List.flatMap_nil, List.append_nil]
  | cons p ps ih =>
    cases p with
    | literal s =>
      rw [marksFrom, ← ih, List.flatMap_cons, ← List.append_assoc]
      rfl
    | block name text =>
      have hsplit : glyphs (pending ++ (placeholder name ++ ps.flatMap Piece.shown)) =
          glyphs pending ++ glyphs (placeholder name ++ ps.flatMap Piece.shown) :=
        glyphs_append (c := Byte.dollar) (by decide) pending _
      rw [marksFrom, List.flatMap_append, hliteral, List.flatMap_cons, List.flatMap_cons, ← ih []]
      change glyphs (pending ++ (placeholder name ++ ps.flatMap Piece.shown)) = _
      rw [hsplit, glyphs_placeholder_append]
      rfl

theorem settle_placeholder (seen gap : Bool) (name : Bytes) (us : List Glyph) :
    settle Glyph.isBlank space seen gap (glyphs (placeholder name) ++ us) =
      (if seen && gap then [space] else []) ++
        settle Glyph.isBlank space false false (glyphs (placeholder name)) ++
        settle Glyph.isBlank space true false us := by
  have hdollar : Glyph.isBlank (.char '$') = false := by decide
  have hbrace : Glyph.isBlank (.char '}') = false := by decide
  rw [glyphs_placeholder]
  simp only [List.cons_append, List.append_assoc, List.nil_append]
  rw [settle_solid _ hdollar, settle_solid _ hdollar, ← List.cons_append, settle_append _ hbrace]
  simp

theorem ofGlyphs_settle (marks : List Mark) (hnames : ∀ name text, .block name text ∈ marks → Readable name)
    (seen gap : Bool) :
    ofGlyphs (settle Glyph.isBlank space seen gap (marks.flatMap Mark.units)) =
      (settle Mark.isBlank (.glyph space) seen gap marks).flatMap
        (Mark.bytes fun name _ => placeholder name) := by
  induction marks generalizing seen gap with
  | nil => rfl
  | cons m ms ih =>
    have hrest := ih fun name text hmem => hnames name text (List.mem_cons_of_mem m hmem)
    cases m with
    | glyph g =>
      change ofGlyphs (settle _ _ seen gap (g :: ms.flatMap Mark.units)) = _
      by_cases hg : g.isBlank = true
      · have hmark : (Mark.glyph g).isBlank = true := hg
        rw [settle_blank _ hg, settle_blank _ hmark, hrest]
      · have hsolid : g.isBlank = false := by simpa using hg
        have hmark : (Mark.glyph g).isBlank = false := hsolid
        rw [settle_solid _ hsolid, settle_solid _ hmark, ofGlyphs, List.flatMap_append,
          List.flatMap_append, List.flatMap_cons, List.flatMap_cons, ← hrest]
        cases seen <;> cases gap <;> rfl
    | block name text =>
      have hmark : (Mark.block name text).isBlank = false := rfl
      have hwhole : ofGlyphs (settle Glyph.isBlank space false false
          (glyphs (placeholder name))) = placeholder name := by
        rw [← collapse_eq]
        exact (hnames name text List.mem_cons_self).2
      rw [List.flatMap_cons, settle_solid _ hmark]
      change ofGlyphs (settle _ _ seen gap (glyphs (placeholder name) ++ _)) = _
      rw [settle_placeholder, ofGlyphs, List.flatMap_append, List.flatMap_append, List.flatMap_append,
        List.flatMap_cons, ← hrest]
      change _ ++ ofGlyphs _ ++ ofGlyphs _ = _
      rw [hwhole, List.append_assoc]
      cases seen <;> cases gap <;> rfl

theorem mem_marksFrom {pending name text : Bytes} (h : .block name text ∈ marksFrom pending pieces) :
    (name, text) ∈ pieces.filterMap Piece.block? := by
  induction pieces generalizing pending with
  | nil => simp [marksFrom] at h
  | cons p ps ih =>
    cases p with
    | literal s => exact ih h
    | block n t =>
      simp only [marksFrom, List.mem_append, List.mem_map, reduceCtorEq, and_false, exists_false, false_or,
        List.mem_cons, Mark.block.injEq] at h
      change (name, text) ∈ (n, t) :: ps.filterMap Piece.block?
      rw [List.mem_cons]
      rcases h with ⟨rfl, rfl⟩ | h
      · exact .inl rfl
      · exact .inr (ih h)

theorem mem_of_mem_settle {α : Type} {blank : α → Bool} {space u : α} (hu : u ≠ space) {seen gap : Bool} {us : List α}
    (h : u ∈ settle blank space seen gap us) : u ∈ us := by
  induction us generalizing seen gap with
  | nil => exact h
  | cons v us ih =>
    rw [settle] at h
    split at h
    · exact List.mem_cons_of_mem v (ih h)
    · simp only [List.mem_append, List.mem_cons] at h
      rcases h with h | rfl | h
      · split at h
        · exact absurd (List.mem_singleton.1 h) hu
        · cases h
      · exact List.mem_cons_self
      · exact List.mem_cons_of_mem v (ih h)

theorem mem_collapsed {name text : Bytes} (h : .block name text ∈ collapsed pieces) :
    (name, text) ∈ pieces.filterMap Piece.block? := by
  rw [collapsed, (intercalate_runs _ _).2.1 false] at h
  exact mem_marksFrom (mem_of_mem_settle (by simp) h)

theorem collapse_shown (pieces : List Piece)
    (hnames : ∀ b ∈ pieces.filterMap Piece.block?, Readable b.1) :
    collapse (pieces.flatMap Piece.shown) =
      (collapsed pieces).flatMap (Mark.bytes fun name _ => placeholder name) := by
  rw [collapse_eq, ← List.nil_append (pieces.flatMap Piece.shown), glyphs_shown, collapsed,
    (intercalate_runs _ _).2.1 false]
  exact ofGlyphs_settle _ (fun name text hmem => hnames _ (mem_marksFrom hmem)) false false

/-! ### Filling in -/

/-- The literal texts of a message before, between and after its blocks, the first from some text on. -/
def chunks : Bytes → List Mark → List Bytes
  | pending, [] => [pending]
  | pending, .glyph g :: ms => chunks (pending ++ g.bytes) ms
  | pending, .block _ _ :: ms => pending :: chunks [] ms

/-- A placeholder begins in the text and does not end there. -/
def Dangling (s : Bytes) : Prop := ∃ t ∈ s.tails, placeholderStart <+: t ∧ Byte.rightBrace ∉ t

instance (s : Bytes) : Decidable (Dangling s) := inferInstanceAs (Decidable (∃ t ∈ s.tails, _))

theorem Dangling.of_suffix {s' : Bytes} (h : s <:+ s') : Dangling s → Dangling s' := by
  rintro ⟨t, ht, hdangling⟩
  exact ⟨t, (List.mem_tails t s').2 (((List.mem_tails t s).1 ht).trans h), hdangling⟩

/-- No literal text has the placeholder of a known block or leaves one open before a block. -/
structure Undisturbed (known : List Bytes) (marks : List Mark) : Prop where
  whole : ∀ s ∈ chunks [] marks, ∀ name ∈ known, ¬ placeholder name <:+: s
  closed : ∀ s ∈ (chunks [] marks).dropLast, ¬ Dangling s

instance (known : List Bytes) (marks : List Mark) : Decidable (Undisturbed known marks) :=
  decidable_of_iff (_ ∧ _) ⟨fun h => ⟨h.1, h.2⟩, fun h => ⟨h.whole, h.closed⟩⟩

theorem Undisturbed.mono {known known' : List Bytes} (hsub : ∀ name ∈ known', name ∈ known)
    (h : Undisturbed known marks) : Undisturbed known' marks :=
  ⟨fun s hs name hname => h.whole s hs name (hsub name hname), h.closed⟩

/-- What stands for a block when the message is filled in. -/
def filled (mapping : Assoc Bytes) (name : Bytes) : Bytes := (mapping.get? name).getD (placeholder name)

/-- A placeholder begins with the byte and what follows it. -/
def Opens (c : UInt8) (s : Bytes) : Prop := c = Byte.dollar ∧ s.head? = some Byte.leftBrace

instance (c : UInt8) (s : Bytes) : Decidable (Opens c s) := inferInstanceAs (Decidable (_ ∧ _))

theorem Opens.eq_append (h : Opens c s) : c :: s = placeholderStart ++ s.tail := by
  obtain ⟨rfl, hhead⟩ := h
  cases s with
  | nil => cases hhead
  | cons d s =>
    cases hhead
    rfl

theorem Opens.dangling (h : Opens c s) (hopen : Byte.rightBrace ∉ s.tail) :
    Dangling (c :: s) := by
  refine ⟨c :: s, (List.mem_tails _ _).2 (List.suffix_refl _), ⟨s.tail, h.eq_append.symm⟩, ?_⟩
  rw [h.eq_append, List.mem_append, not_or]
  exact ⟨by decide, hopen⟩

theorem Opens.exists_placeholder (h : Opens c s) (hclose : Byte.rightBrace ∈ s.tail) :
    ∃ name t, c :: s = placeholder name ++ t ∧ Byte.rightBrace ∉ name := by
  cases hbreak : Bytes.breakAt? Byte.rightBrace s.tail with
  | none => exact absurd hclose (Bytes.breakAt?_eq_none_iff.1 hbreak)
  | some r =>
    obtain ⟨htail, hnot⟩ := Bytes.breakAt?_eq_some_iff.1 hbreak
    refine ⟨r.1, r.2, ?_, hnot⟩
    rw [h.eq_append, htail]
    simp [placeholder]

section Filling

variable {mapping : Assoc Bytes}
variable {s : Bytes}

theorem fillPlaceholders_cons {c : UInt8} (h : Opens c s → Byte.rightBrace ∉ s.tail) :
    fillPlaceholders mapping (c :: s) = c :: fillPlaceholders mapping s := by
  rw [fillPlaceholders]
  split
  · next hopens =>
    have hnone : placeholderName? s.tail = none :=
      Bytes.breakAt?_eq_none_iff.2 (h (by simpa [Opens] using hopens))
    split
    · next r hr =>
      rw [hnone] at hr
      cases hr
    · rfl
  · rfl

theorem fillPlaceholders_placeholder {name : Bytes} (hname : Byte.rightBrace ∉ name) (t : Bytes) :
    fillPlaceholders mapping (placeholder name ++ t) = filled mapping name ++ fillPlaceholders mapping t := by
  have hbreak : placeholderName? (name ++ Byte.rightBrace :: t) = some (name, t) :=
    Bytes.breakAt?_eq_some_iff.2 ⟨rfl, hname⟩
  have hstart : placeholder name ++ t = Byte.dollar :: Byte.leftBrace :: (name ++ Byte.rightBrace :: t) := by
    simp [placeholder, placeholderStart]
  rw [hstart, fillPlaceholders]
  simp only [List.head?_cons, List.tail_cons, decide_true, Bool.and_true, if_true]
  split
  · next r hr =>
    rw [hbreak] at hr
    cases hr
    rfl
  · next hr =>
    rw [hbreak] at hr
    cases hr

/-- Literal text stays as it is, and so does literal text before a block. -/
theorem fillPlaceholders_literal (hwhole : ∀ name ∈ mapping.keys, ¬ placeholder name <:+: s) :
    fillPlaceholders mapping s = s ∧
      (¬ Dangling s → ∀ name t, Byte.rightBrace ∉ name →
        fillPlaceholders mapping (s ++ (placeholder name ++ t)) =
          s ++ (filled mapping name ++ fillPlaceholders mapping t)) := by
  induction hn : s.length using Nat.strongRecOn generalizing s with
  | ind n ih =>
    cases s with
    | nil => exact ⟨by rw [fillPlaceholders], fun _ name t hname => fillPlaceholders_placeholder hname t⟩
    | cons c s =>
      rw [List.length_cons] at hn
      by_cases hclosed : Opens c s ∧ Byte.rightBrace ∈ s.tail
      · -- a placeholder of a name that is not known
        obtain ⟨inner, rest, heq, hinner⟩ := hclosed.1.exists_placeholder hclosed.2
        have hfilled : filled mapping inner = placeholder inner := by
          have hkeys : inner ∉ mapping.keys := fun hmem => hwhole inner hmem ⟨[], rest, by rw [heq]; rfl⟩
          rw [filled, Assoc.get?_eq_none_iff.2 hkeys]
          rfl
        have hsuffix : rest <:+ c :: s := ⟨placeholder inner, heq.symm⟩
        have hlength : rest.length < n := by
          have hle := congrArg List.length heq
          simp [placeholder, placeholderStart] at hle
          omega
        obtain ⟨hrest, hbefore⟩ := ih _ hlength (fun name hname hpart =>
          hwhole name hname (hpart.trans hsuffix.isInfix)) rfl
        rw [heq]
        refine ⟨?_, fun hdangling name t hname => ?_⟩
        · rw [fillPlaceholders_placeholder hinner, hfilled, hrest]
        · have hnot : ¬ Dangling rest := fun h => hdangling (h.of_suffix (heq ▸ hsuffix))
          rw [List.append_assoc, fillPlaceholders_placeholder hinner, hfilled, hbefore hnot name t hname,
            List.append_assoc]
      · have hopen : Opens c s → Byte.rightBrace ∉ s.tail := fun hopens hmem => hclosed ⟨hopens, hmem⟩
        obtain ⟨hrest, hbefore⟩ := ih _ (by omega) (fun name hname hpart =>
          hwhole name hname (hpart.trans (List.suffix_cons c s).isInfix)) rfl
        refine ⟨by rw [fillPlaceholders_cons hopen, hrest], fun hdangling name t hname => ?_⟩
        have hnot : ¬ Dangling s := fun h => hdangling (h.of_suffix (List.suffix_cons c s))
        have hopens : ¬ Opens c (s ++ (placeholder name ++ t)) := by
          intro hopens
          cases s with
          | nil => exact absurd hopens.2 (by simp [placeholder, placeholderStart]; decide)
          | cons d s =>
            have hstart : Opens c (d :: s) := hopens
            exact hdangling (hstart.dangling (hopen hstart))
        rw [List.cons_append, fillPlaceholders_cons fun h => absurd h hopens, hbefore hnot name t hname,
          List.cons_append]

end Filling

theorem chunks_ne_nil (pending : Bytes) (marks : List Mark) : chunks pending marks ≠ [] := by
  induction marks generalizing pending with
  | nil => exact List.cons_ne_nil _ _
  | cons m ms ih =>
    cases m with
    | glyph g => exact ih _
    | block name text => exact List.cons_ne_nil _ _

theorem fillPlaceholders_flatMap {mapping : Assoc Bytes}
    (hnames : ∀ name text, .block name text ∈ marks → Byte.rightBrace ∉ name)
    (h : Undisturbed mapping.keys marks) :
    fillPlaceholders mapping (marks.flatMap (Mark.bytes fun name _ => placeholder name)) =
      marks.flatMap (Mark.bytes fun name _ => filled mapping name) := by
  suffices hpending : ∀ pending : Bytes,
      (∀ s ∈ chunks pending marks, ∀ name ∈ mapping.keys, ¬ placeholder name <:+: s) →
      (∀ s ∈ (chunks pending marks).dropLast, ¬ Dangling s) →
      fillPlaceholders mapping (pending ++ marks.flatMap (Mark.bytes fun name _ => placeholder name)) =
        pending ++ marks.flatMap (Mark.bytes fun name _ => filled mapping name) from
    hpending [] h.whole h.closed
  clear h
  induction marks with
  | nil =>
    intro pending hwhole _
    rw [List.flatMap_nil, List.flatMap_nil, List.append_nil]
    exact (fillPlaceholders_literal (hwhole pending List.mem_cons_self)).1
  | cons m ms ih =>
    have hrest := ih fun name text hmem => hnames name text (List.mem_cons_of_mem m hmem)
    intro pending hwhole hclosed
    rw [List.flatMap_cons, List.flatMap_cons]
    cases m with
    | glyph g =>
      rw [← List.append_assoc, ← List.append_assoc]
      exact hrest (pending ++ g.bytes) hwhole hclosed
    | block name text =>
      rw [chunks] at hwhole hclosed
      rw [List.dropLast_cons_of_ne_nil (chunks_ne_nil [] ms)] at hclosed
      obtain ⟨hwhole, hwholes⟩ := List.forall_mem_cons.1 hwhole
      obtain ⟨hclosed, hcloseds⟩ := List.forall_mem_cons.1 hclosed
      have hfill : fillPlaceholders mapping (ms.flatMap (Mark.bytes fun name _ => placeholder name)) =
          ms.flatMap (Mark.bytes fun name _ => filled mapping name) := hrest [] hwholes hcloseds
      change fillPlaceholders mapping (pending ++ (placeholder name ++ _)) = pending ++ (filled mapping name ++ _)
      rw [(fillPlaceholders_literal hwhole).2 hclosed name _ (hnames name text List.mem_cons_self), hfill]

theorem fillPlaceholders_collapse {mapping : Assoc Bytes} (hnames : ∀ b ∈ pieces.filterMap Piece.block?, Readable b.1)
    (h : Undisturbed mapping.keys (collapsed pieces)) :
    fillPlaceholders mapping (collapse (pieces.flatMap Piece.shown)) =
      (collapsed pieces).flatMap (Mark.bytes fun name _ => filled mapping name) := by
  rw [collapse_shown pieces hnames]
  exact fillPlaceholders_flatMap (fun name text hmem => (hnames _ (mem_collapsed hmem)).1) h

/-- A block that has rendered one text only is filled in with its own. -/
theorem filled_ofEntries {entries : List (Bytes × Bytes)} {b : Bytes × Bytes} (hmem : b ∈ entries)
    (hone : ∀ b' ∈ entries, b'.1 = b.1 → b'.2 = b.2) : filled (.ofEntries entries) b.1 = b.2 := by
  rw [filled, Assoc.get?_ofEntries]
  cases hget : Assoc.get? entries.reverse b.1 with
  | none =>
    exact absurd (List.mem_map_of_mem (List.mem_reverse.2 hmem)) (Assoc.get?_eq_none_iff.1 hget)
  | some text => exact hone _ (List.mem_reverse.1 (Assoc.mem_of_get? hget)) rfl

end PageTemplate
