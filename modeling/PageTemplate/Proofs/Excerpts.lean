import Mathlib.Algebra.Ring.Nat
import Mathlib.Data.List.Induction
import PageTemplate.Proofs.Bytes
import PageTemplate.Report

/-!
Places in a source and the excerpts that show them. A source falls into lines at its line breaks. The line and column of
an offset say where it stands in one of these lines, and the excerpt is that line with marks from this place on.
-/

namespace PageTemplate

namespace Bytes

theorem splitAt_eq_cons (b : UInt8) (s : Bytes) : splitAt b s = s.takeWhile (· ≠ b) :: (splitAt b s).tail := by
  induction s with
  | nil => rfl
  | cons c s ih =>
    rw [splitAt_cons, List.takeWhile_cons]
    split
    · next hc => simp [hc]
    · next hc =>
      rw [ih]
      simp [hc]

/-- The lines of a text that is continued: those before its last one, the last one with the first of the
continuation, and the others of the continuation. -/
theorem exists_splitAt_append (s : Bytes) : ∃ before : List Bytes,
    (∀ t, splitAt Byte.newline (s ++ t) = before ++ (lastLine s ++ firstLine t) :: (splitAt Byte.newline t).tail) ∧
      before.length = s.count Byte.newline ∧ (before.map (·.length + 1)).sum + (lastLine s).length = s.length := by
  induction s using List.reverseRecOn with
  | nil => exact ⟨[], splitAt_eq_cons _, rfl, rfl⟩
  | append_singleton s c ih =>
    obtain ⟨before, hlines, hcount, hsum⟩ := ih
    have hcons (t : Bytes) : s ++ [c] ++ t = s ++ c :: t := by rw [List.append_assoc, List.singleton_append]
    by_cases hc : c = Byte.newline
    · subst hc
      have hlast : lastLine (s ++ [Byte.newline]) = [] := by simp [lastLine]
      refine ⟨before ++ [lastLine s], fun t => ?_, by simp [hcount], by simp [hlast, ← hsum]; omega⟩
      have hfirst : firstLine (Byte.newline :: t) = [] := by simp [firstLine]
      rw [hcons, hlines, hfirst, hlast, splitAt_cons, if_pos rfl, List.tail_cons, splitAt_eq_cons]
      simp [firstLine]
    · have hlast : lastLine (s ++ [c]) = lastLine s ++ [c] := by simp [lastLine, hc]
      refine ⟨before, fun t => ?_, by simp [hcount, hc], by simp [hlast, ← hsum]; omega⟩
      have hfirst : firstLine (c :: t) = c :: firstLine t := by simp [firstLine, hc]
      rw [hcons, hlines, hfirst, hlast, splitAt_cons, if_neg hc, splitAt_eq_cons]
      simp

/-- The lines of a text, without their line breaks. -/
def lines (s : Bytes) : List Bytes := splitAt Byte.newline s

end Bytes

/-- The offset at which a line begins, the lines being counted from one. -/
def lineStart (source : Bytes) (line : Nat) : Nat := (((Bytes.lines source).take (line - 1)).map (·.length + 1)).sum

theorem lines_lineColumn {source : Bytes} {offset : Nat} (h : offset ≤ source.length) :
    (Bytes.lines source)[(lineColumn source offset).1 - 1]? =
        some (Bytes.lastLine (source.take offset) ++ Bytes.firstLine (source.drop offset)) ∧
      offset = lineStart source (lineColumn source offset).1 + ((lineColumn source offset).2 - 1) := by
  obtain ⟨before, hlines, hcount, hsum⟩ := Bytes.exists_splitAt_append (source.take offset)
  have hsource : Bytes.lines source = _ := (List.take_append_drop offset source) ▸ hlines (source.drop offset)
  rw [List.length_take_of_le h] at hsum
  simp only [lineColumn, lineStart, hsource, Nat.add_sub_cancel_left, ← hcount, List.take_left', hsum]
  simp

/-- An offset stands at its column in its line, no other offset does, and the excerpt shows the line with marks from the
column on. There is always a mark, and only this one may stand past the end of the line. -/
theorem excerpt_at_location {source : Bytes} {offset : Nat} (h : offset ≤ source.length) {line column : Nat}
    (hplace : lineColumn source offset = (line, column)) :
    line = 1 + (source.take offset).count Byte.newline ∧ 1 ≤ column ∧ offset = lineStart source line + (column - 1) ∧
      (∀ other ≤ source.length, lineColumn source other = (line, column) → other = offset) ∧
      ∃ text, (Bytes.lines source)[line - 1]? = some text ∧ column - 1 ≤ text.length ∧
        ∀ site : Site, site.source = source → source ≠ [] → site.offset = offset →
          ∃ width, 1 ≤ width ∧ (1 < width → column - 1 + width ≤ text.length) ∧
            width = max 1 (min site.expression.length (text.length - (column - 1))) ∧
            Report.excerpt site =
              some (text, List.replicate (column - 1) Byte.space ++ List.replicate width Byte.caret) := by
  obtain ⟨rfl, rfl⟩ := Prod.mk.inj hplace
  obtain ⟨htext, hoffset⟩ := lines_lineColumn h
  refine ⟨rfl, Nat.le_add_right _ _, hoffset, fun other hother heq => ?_, _, htext, by simp, fun site hs hne hat => ?_⟩
  · rw [(lines_lineColumn hother).2, heq]
    exact hoffset.symm
  · subst hs
    have hguard : ¬ ((site.source.isEmpty || decide (offset > site.source.length)) = true) := by
      simpa using ⟨hne, h⟩
    refine ⟨_, Nat.le_max_left _ _, fun hwide => ?_, rfl, ?_⟩
    · simp only [List.length_append, Nat.add_sub_cancel_left] at hwide ⊢
      omega
    · simp only [Report.excerpt, hat]
      rw [if_neg hguard]
      simp [Bytes.replicate]
      omega

theorem excerpt_at_location_of_long_expression :
    let site : Site := { expression := utf8 "xy + 100", source := utf8 "a\n${xy}\nb", offset := 4 }
    4 ≤ site.source.length ∧ lineColumn site.source 4 = (2, 3) ∧ ∃ text width,
      (Bytes.lines site.source)[1]? = some text ∧
        Report.excerpt site = some (text, List.replicate 2 Byte.space ++ List.replicate width Byte.caret) := by
  intro site
  have hplace : lineColumn site.source 4 = (2, 3) := by decide +kernel
  obtain ⟨_, _, _, _, text, htext, _, hexcerpt⟩ := excerpt_at_location (by decide +kernel) hplace
  obtain ⟨width, _, _, _, hshown⟩ := hexcerpt site rfl (by decide +kernel) rfl
  exact ⟨by decide +kernel, hplace, text, width, htext, hshown⟩

end PageTemplate
