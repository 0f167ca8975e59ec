import Mathlib.Data.List.TakeWhile
import PageTemplate.Proofs.Building
import PageTemplate.Proofs.Markup.Placement

/-!
Lists of clauses. A clause is a stretch of its list in which doubled semicolons are undone. That does not move its
beginning, since no semicolon stands before the expression of a clause: so the expressions of definitions and attributes
begin where their tokens say. The main statements are `undoubled_of_definitions` and `undoubled_of_attributes`.
-/

namespace PageTemplate.Clause

open Markup (Token)

variable {s source : Bytes} {i : Nat} {t : Token}
variable {c : UInt8}

/-- The text with one semicolon for each doubled one. -/
def undouble : Bytes → Bytes
  | [] => []
  | [c] => [c]
  | c :: d :: s =>
    if c = Byte.semicolon ∧ d = Byte.semicolon then Byte.semicolon :: undouble s else c :: undouble (d :: s)

def HasDoubled (s : Bytes) : Prop := [Byte.semicolon, Byte.semicolon] <:+: s

@[simp] theorem undouble_nil : undouble [] = [] := rfl

theorem undouble_cons (hc : c ≠ Byte.semicolon) (s : Bytes) : undouble (c :: s) = c :: undouble s := by
  cases s with
  | nil => rfl
  | cons d s => rw [undouble, if_neg (fun h => hc h.1)]

theorem undouble_doubled (s : Bytes) :
    undouble (Byte.semicolon :: Byte.semicolon :: s) = Byte.semicolon :: undouble s := by
  rw [undouble, if_pos ⟨rfl, rfl⟩]

theorem head?_undouble (s : Bytes) : (undouble s).head? = s.head? := by
  fun_cases undouble s with
  | case1 => rfl
  | case2 => rfl
  | case3 c d s h => simp [h.1]
  | case4 => rfl

theorem undouble_eq_self (h : ¬ HasDoubled s) : undouble s = s := by
  fun_induction undouble s with
  | case1 => rfl
  | case2 => rfl
  | case3 c d s hdoubled _ =>
    obtain ⟨rfl, rfl⟩ := hdoubled
    exact absurd ⟨[], s, rfl⟩ h
  | case4 c d s _ ih =>
    rw [ih fun hrest => h (hrest.trans (List.suffix_cons c _).isInfix)]

theorem undouble_append {added : Bytes} (h : undouble (Byte.semicolon :: added) = Byte.semicolon :: undouble added)
    (s : Bytes) : undouble (s ++ added) = undouble s ++ undouble added := by
  fun_induction undouble s with
  | case1 => rfl
  | case2 c =>
    by_cases hc : c = Byte.semicolon
    · rw [hc]
      exact h
    · exact undouble_cons hc added
  | case3 c d s hdoubled ih =>
    obtain ⟨rfl, rfl⟩ := hdoubled
    rw [List.cons_append, List.cons_append, undouble_doubled, ih]
    rfl
  | case4 c d s hdoubled ih =>
    rw [List.cons_append, List.cons_append, undouble, if_neg hdoubled, ← List.cons_append, ih]
    rfl

theorem undouble_concat (s : Bytes) (hc : c ≠ Byte.semicolon) : undouble (s ++ [c]) = undouble s ++ [c] := by
  refine undouble_append ?_ s
  simp [undouble, hc]

theorem undouble_concat_doubled (s : Bytes) :
    undouble (s ++ [Byte.semicolon, Byte.semicolon]) = undouble s ++ [Byte.semicolon] :=
  undouble_append rfl s

theorem undouble_drop (h : Byte.semicolon ∉ (undouble s).take i) :
    undouble (s.drop i) = (undouble s).drop i := by
  induction i generalizing s with
  | zero => rfl
  | succ i ih =>
    cases s with
    | nil => rfl
    | cons c s =>
      have hc : c ≠ Byte.semicolon := by
        rintro rfl
        have hhead := head?_undouble (Byte.semicolon :: s)
        obtain ⟨rest, hrest⟩ := List.head?_eq_some_iff.1 hhead
        simp [hrest] at h
      rw [undouble_cons hc, List.take_succ_cons, List.mem_cons, not_or] at h
      rw [undouble_cons hc, List.drop_succ_cons, List.drop_succ_cons, ih h.2]

theorem exists_prefix_undouble_eq_take (s : Bytes) (n : Nat) : ∃ p, p <+: s ∧ undouble p = (undouble s).take n := by
  induction n generalizing s with
  | zero => exact ⟨[], List.nil_prefix, rfl⟩
  | succ n ih =>
    fun_cases undouble s with
    | case1 => exact ⟨[], List.nil_prefix, rfl⟩
    | case2 c => exact ⟨[c], List.prefix_rfl, by simp [undouble]⟩
    | case3 c d s hdoubled =>
      obtain ⟨rfl, rfl⟩ := hdoubled
      obtain ⟨p, ⟨rest, rfl⟩, hp⟩ := ih s
      exact ⟨Byte.semicolon :: Byte.semicolon :: p, ⟨rest, rfl⟩, by rw [undouble_doubled, hp, List.take_succ_cons]⟩
    | case4 c d s hdoubled =>
      obtain ⟨p, ⟨rest, hrest⟩, hp⟩ := ih (d :: s)
      refine ⟨c :: p, ⟨rest, by rw [List.cons_append, hrest]⟩, ?_⟩
      rw [List.take_succ_cons, ← hp]
      cases p with
      | nil => rfl
      | cons d' p =>
        cases hrest
        rw [undouble, if_neg hdoubled]

theorem eq_undouble_of_mem_pieces {text : Bytes} {start pos : Nat} {seen : Bytes} (hstart : start ≤ pos)
    (hs : text.drop pos = s) (hseen : seen.reverse = undouble ((text.drop start).take (pos - start)))
    {p : Nat × Nat × Bytes} (h : p ∈ pieces start pos seen s) :
    p.2.2 = undouble ((text.drop p.1).take (p.2.1 - p.1)) := by
  -- What has been read grows by the bytes that are read next.
  have hgrown : ∀ {start pos : Nat} {s : Bytes}, start ≤ pos → text.drop pos = s → ∀ n,
      (text.drop start).take (pos + n - start) = (text.drop start).take (pos - start) ++ s.take n := by
    intro start pos s hstart hs n
    rw [Nat.sub_add_comm hstart, List.take_add, List.drop_drop, Nat.add_sub_cancel' hstart, hs]
  fun_induction pieces start pos seen s with
  | case1 start pos seen =>
    rw [List.mem_singleton.1 h]
    exact hseen
  | case2 start pos seen =>
    rcases List.mem_cons.1 h with rfl | h
    · exact hseen
    · rw [List.mem_singleton.1 h]
      simp
  | case3 start pos seen c hc =>
    rw [List.mem_singleton.1 h, List.reverse_cons, hseen, hgrown hstart hs 1]
    exact (undouble_concat _ hc).symm
  | case4 start pos seen c d s hc ih =>
    refine ih (by omega) ?_ ?_ h
    · rw [← List.drop_drop, hs]
      rfl
    · rw [List.reverse_cons, hseen, hgrown hstart hs 1]
      exact (undouble_concat _ hc).symm
  | case5 start pos seen c s hc ih =>
    obtain rfl : c = Byte.semicolon := by simpa using hc
    refine ih (by omega) ?_ ?_ h
    · rw [← List.drop_drop, hs]
      rfl
    · rw [List.reverse_cons, hseen, hgrown hstart hs 2]
      exact (undouble_concat_doubled _).symm
  | case6 start pos seen c d s hc hd ih =>
    rcases List.mem_cons.1 h with rfl | h
    · exact hseen
    · refine ih (Nat.le_refl _) ?_ (by simp) h
      rw [← List.drop_drop, hs]
      rfl

/-- The token holds bytes of the source, from its position on, with doubled semicolons undone. -/
structure Undoubled (source : Bytes) (t : Token) : Prop where
  source_eq : t.source = source
  exists_raw : ∃ raw, raw <+: source.drop t.pos ∧ t.value = undouble raw

namespace Undoubled

variable {source : Bytes} {t : Token}

theorem drop (h : Undoubled source t) {i : Nat} (hi : Byte.semicolon ∉ t.value.take i) : Undoubled source (t.drop i) := by
  obtain ⟨hsource, raw, hraw, hvalue⟩ := h
  refine ⟨hsource, raw.drop i, ?_, ?_⟩
  · have hdrop := hraw.drop i
    rwa [List.drop_drop] at hdrop
  · rw [hvalue] at hi
    change t.value.drop i = _
    rw [undouble_drop hi, hvalue]

theorem slice (h : Undoubled source t) {i : Nat} (hi : Byte.semicolon ∉ t.value.take i) (j : Nat) :
    Undoubled source (t.slice i j) := by
  obtain ⟨hsource, raw, hraw, hvalue⟩ := h.drop hi
  obtain ⟨p, hp, htake⟩ := exists_prefix_undouble_eq_take raw (j - i)
  refine ⟨hsource, p, hp.trans hraw, ?_⟩
  rw [htake, ← hvalue]
  rfl

theorem trim (h : Undoubled source t) : Undoubled source t.trim := by
  refine h.slice ?_ _
  have hblank : t.value.take (t.value.takeWhile Byte.isBlank).length = t.value.takeWhile Byte.isBlank :=
    List.prefix_iff_eq_take.1 (List.takeWhile_prefix _) |>.symm
  rw [hblank]
  intro hmem
  have hsemicolon := List.mem_takeWhile_imp hmem
  revert hsemicolon
  decide

end Undoubled

theorem undoubled_of_mem_split (ht : t.Placed source) {part : Token} (h : part ∈ split t) :
    Undoubled source part := by
  obtain ⟨p, hp, rfl⟩ := List.mem_map.1 (List.mem_filter.1 h).1
  have hpiece := eq_undouble_of_mem_pieces (Nat.le_refl 0) (s := t.value) rfl (by simp) hp
  have hraw := (ht.slice p.1 p.2.1).isPrefix
  exact Undoubled.trim ⟨ht.source_eq, _, hraw, hpiece⟩

/-! ### What stands before the expression of a clause -/

/-- The text goes on with the rest after bytes that are no semicolons. -/
def GoesOn (s rest : Bytes) : Prop := ∃ lead, s = lead ++ rest ∧ Byte.semicolon ∉ lead

namespace GoesOn

variable {s rest : Bytes} {i : Nat} {ns : List Bytes}
variable {whole : Bytes}

theorem refl (s : Bytes) : GoesOn s s := ⟨[], rfl, by simp⟩

theorem trans {t u : Bytes} (hst : GoesOn s t) (htu : GoesOn t u) : GoesOn s u := by
  obtain ⟨lead, rfl, hlead⟩ := hst
  obtain ⟨lead', rfl, hlead'⟩ := htu
  exact ⟨lead ++ lead', by simp, by simp [hlead, hlead']⟩

theorem cons (hc : c ≠ Byte.semicolon) (s : Bytes) : GoesOn (c :: s) s := ⟨[c], rfl, by simpa using hc.symm⟩

theorem dropWhile {p : UInt8 → Bool} (hp : p Byte.semicolon = false) (s : Bytes) : GoesOn s (s.dropWhile p) := by
  refine ⟨s.takeWhile p, List.takeWhile_append_dropWhile.symm, fun hmem => ?_⟩
  have hsemicolon := List.mem_takeWhile_imp hmem
  rw [hp] at hsemicolon
  cases hsemicolon

theorem skipBlanks (s : Bytes) : GoesOn s (skipBlanks s) := dropWhile (by decide) s

theorem drop (h : Byte.semicolon ∉ s.take i) : GoesOn s (s.drop i) :=
  ⟨s.take i, (List.take_append_drop i s).symm, h⟩

theorem readName? {n : Bytes} (h : readName? s = some (n, rest)) : GoesOn s rest := by
  unfold Clause.readName? at h
  split at h
  · split at h
    · cases h
      exact dropWhile (by decide) _
    · cases h
  · cases h

theorem readNames? {fuel : Nat} (h : readNames? fuel s = some (ns, rest)) :
    GoesOn s rest := by
  induction fuel generalizing s rest ns with
  | zero => cases h
  | succ fuel ih =>
    have hblanks := skipBlanks s
    unfold Clause.readNames? at h
    split at h
    · next c s' hc =>
      rw [hc] at hblanks
      split at h
      · next hparen =>
        cases h
        exact hblanks.trans (cons (by rw [hparen]; decide) _)
      · split at h
        · next hcomma =>
          have hafter : GoesOn s (Clause.skipBlanks s') :=
            (hblanks.trans (cons (by rw [hcomma]; decide) s')).trans (skipBlanks s')
          split at h
          · next hname =>
            obtain ⟨⟨more, rest'⟩, hmore, he⟩ := Option.map_eq_some_iff.1 h
            cases he
            exact (hafter.trans (readName? hname)).trans (ih hmore)
          · split at h
            · next hlast =>
              rw [hlast] at hafter
              split at h
              · next hparen =>
                cases h
                exact hafter.trans (cons (by rw [hparen]; decide) _)
              · cases h
            · cases h
        · cases h
    · cases h

theorem readTargets? (h : readTargets? s = some (ns, rest)) : GoesOn s rest := by
  unfold Clause.readTargets? at h
  split at h
  · next hname =>
    cases h
    exact readName? hname
  · split at h
    · next c s' _ =>
      split at h
      · next hparen =>
        obtain ⟨⟨n, s₁⟩, hname, h⟩ := Option.bind_eq_some_iff.1 h
        obtain ⟨⟨ns', s₂⟩, hnames, h⟩ := Option.bind_eq_some_iff.1 h
        cases h
        have hfirst : GoesOn (c :: s') s₁ :=
          ((cons (by rw [hparen]; decide) s').trans (skipBlanks s')).trans (readName? hname)
        exact hfirst.trans (readNames? hnames)
      · cases h
    · cases h

theorem not_mem_take_of_afterBlank? (hrest : GoesOn whole rest) (h : afterBlank? whole rest = some i) :
    Byte.semicolon ∉ whole.take i := by
  unfold afterBlank? at h
  dsimp only at h
  split at h
  · cases h
  · cases h
    obtain ⟨lead, hwhole, hlead⟩ := hrest.trans (skipBlanks rest)
    have htake : whole.take (whole.length - (Clause.skipBlanks rest).length) = lead := by
      rw [hwhole]
      simp
    rwa [htake]

theorem not_mem_take_of_readBinding? (hs : GoesOn whole s) (h : readBinding? whole s = some (ns, i)) :
    Byte.semicolon ∉ whole.take i := by
  obtain ⟨⟨ns', rest⟩, htargets, h⟩ := Option.bind_eq_some_iff.1 h
  obtain ⟨j, hafter, h⟩ := Option.bind_eq_some_iff.1 h
  cases h
  exact (hs.trans (readTargets? htargets)).not_mem_take_of_afterBlank? hafter

theorem afterWord? {word : Bytes} (hword : Byte.semicolon ∉ word) (h : afterWord? word s = some rest) :
    GoesOn s rest := by
  unfold Clause.afterWord? at h
  split at h
  · next hbegins =>
    obtain ⟨i, hi, rfl⟩ := Option.map_eq_some_iff.1 h
    obtain ⟨after, rfl⟩ := List.isPrefixOf_iff_prefix.1 hbegins
    have hafter : GoesOn (word ++ after) ((word ++ after).drop word.length) := drop (by simpa using hword)
    exact drop (hafter.not_mem_take_of_afterBlank? hi)
  · cases h

end GoesOn

theorem not_mem_take_of_readDefinition? {names : List Bytes} {isGlobal : Bool}
    (h : readDefinition? s = some (names, i, isGlobal)) : Byte.semicolon ∉ s.take i := by
  have hreaching : ∀ (word : Bytes) {reach : Bool}, Byte.semicolon ∉ word →
      (do
        let rest ← afterWord? word s
        let p ← readBinding? s rest
        return (p.1, p.2, reach)) = some (names, i, isGlobal) → Byte.semicolon ∉ s.take i := by
    intro word reach hword hread
    obtain ⟨rest, hrest, hread⟩ := Option.bind_eq_some_iff.1 hread
    obtain ⟨⟨ns, j⟩, hbinding, hread⟩ := Option.bind_eq_some_iff.1 hread
    cases hread
    exact (GoesOn.afterWord? hword hrest).not_mem_take_of_readBinding? hbinding
  simp only [readDefinition?, Option.orElse_eq_orElse, Option.orElse_eq_or] at h
  rcases Option.or_eq_some_iff.1 h with h | ⟨_, h⟩
  · exact hreaching (utf8 "local") (by decide) h
  · rcases Option.or_eq_some_iff.1 h with h | ⟨_, h⟩
    · exact hreaching (utf8 "global") (by decide) h
    · obtain ⟨⟨ns, j⟩, hbinding, he⟩ := Option.map_eq_some_iff.1 h
      cases he
      exact (GoesOn.refl s).not_mem_take_of_readBinding? hbinding

theorem not_mem_take_of_readAttribute? {name : Bytes} (h : readAttribute? s = some (name, i)) :
    Byte.semicolon ∉ s.take i := by
  unfold readAttribute? at h
  split at h
  · obtain ⟨j, hj, he⟩ := Option.map_eq_some_iff.1 h
    cases he
    exact (GoesOn.dropWhile (by decide) s).not_mem_take_of_afterBlank? hj
  · cases h

theorem undoubled_of_definitions (ht : t.Placed source) {ds : List Definition} (h : definitions t = .ok ds)
    {d : Definition} (hd : d ∈ ds) : Undoubled source d.expr := by
  obtain ⟨part, hpart, i, hread, hexpr, _⟩ := exists_of_mem_definitions h hd
  rw [hexpr]
  exact (undoubled_of_mem_split ht hpart).drop (not_mem_take_of_readDefinition? hread)

theorem undoubled_of_attributes (ht : t.Placed source) {entries : List AttributeEntry}
    (h : attributes t = .ok entries) {entry : AttributeEntry} (hentry : entry ∈ entries) :
    Undoubled source entry.expr := by
  have hyields : ∀ (parts : List Token) (seen : List Bytes), (∀ part ∈ parts, Undoubled source part) →
      Yields (fun _ => True) (fun entries => ∀ entry ∈ entries, Undoubled source entry.expr)
        (attributeEntries seen parts) := by
    intro parts
    induction parts with
    | nil => exact fun _ _ => .ok (by simp)
    | cons part parts ih =>
      intro seen hparts
      obtain ⟨hpart, hparts⟩ := List.forall_mem_cons.1 hparts
      unfold attributeEntries
      split
      · exact .bind (ih seen hparts) fun entries hentries => .ok (List.forall_mem_cons.2 ⟨hpart, hentries⟩)
      · next name i hread =>
        dsimp only
        split
        · exact .error trivial
        · refine .bind (ih _ hparts) fun entries hentries => .ok (List.forall_mem_cons.2 ⟨?_, hentries⟩)
          exact hpart.drop (not_mem_take_of_readAttribute? hread)
  exact (hyields (split t) [] fun part hpart => undoubled_of_mem_split ht hpart).1 entries h entry hentry

end PageTemplate.Clause
