import PageTemplate.Bytes

/-!
Texts taken apart at a byte or at the first occurrence of another text, stretches that cover a text, and results that are
read off a computation.
-/

namespace PageTemplate

theorem eq_ok_of_toOption {ε α : Type} {x : Except ε α} {a : α} (h : x.toOption = some a) : x = .ok a := by
  cases x with
  | error f => cases h
  | ok b => exact congrArg Except.ok (Option.some.inj h)

theorem exists_eq_ok {ε α : Type} {x : Except ε α} (h : x.toOption.isSome = true) : ∃ a, x = .ok a :=
  (Option.isSome_iff_exists.1 h).imp fun _ => eq_ok_of_toOption

/-- The items lie end to end from `i` to `j`, and none is empty. -/
def Tiles {α : Type} (start stop : α → Nat) : Nat → List α → Nat → Prop
  | i, [], j => i = j
  | i, x :: xs, j => start x = i ∧ i < stop x ∧ Tiles start stop (stop x) xs j

variable {α : Type} {start stop : α → Nat} {xs : List α} {i j : Nat}

theorem Tiles.le (h : Tiles start stop i xs j) : i ≤ j := by
  induction xs generalizing i with
  | nil => exact Nat.le_of_eq h
  | cons x xs ih => exact Nat.le_trans (Nat.le_of_lt h.2.1) (ih h.2.2)

theorem Tiles.of_mem (h : Tiles start stop i xs j) {x : α} (hx : x ∈ xs) :
    start x < stop x ∧ stop x ≤ j := by
  induction xs generalizing i with
  | nil => cases hx
  | cons y xs ih =>
    obtain ⟨hstart, hlt, htiles⟩ := h
    rcases List.mem_cons.1 hx with rfl | hx
    · exact ⟨hstart ▸ hlt, htiles.le⟩
    · exact ih htiles hx

end PageTemplate

namespace PageTemplate.Bytes

variable {b : UInt8}

theorem breakAt?_eq_some_iff {s before after : Bytes} :
    breakAt? b s = some (before, after) ↔ s = before ++ b :: after ∧ b ∉ before := by
  induction s generalizing before with
  | nil => simp [breakAt?]
  | cons c s ih =>
    rw [breakAt?]
    split
    · next hc =>
      cases before with
      | nil => simp [hc]
      | cons d before =>
        simp only [Option.some.injEq, Prod.mk.injEq, reduceCtorEq, false_and, List.cons_append, List.cons.injEq,
          List.mem_cons, not_or, false_iff]
        grind
    · next hc =>
      rw [Option.map_eq_some_iff]
      constructor
      · rintro ⟨⟨before', after'⟩, hrest, hcons⟩
        cases hcons
        obtain ⟨rfl, hnot⟩ := ih.1 hrest
        exact ⟨rfl, by simp [Ne.symm hc, hnot]⟩
      · rintro ⟨hs, hnot⟩
        cases before with
        | nil =>
          cases hs
          exact absurd rfl hc
        | cons d before =>
          cases hs
          rw [List.mem_cons, not_or] at hnot
          exact ⟨(before, after), ih.2 ⟨rfl, hnot.2⟩, rfl⟩

theorem breakAt?_eq_none_iff {s : Bytes} : breakAt? b s = none ↔ b ∉ s := by
  induction s with
  | nil => simp [breakAt?]
  | cons c s ih =>
    rw [breakAt?, List.mem_cons, not_or]
    split
    · next hc => simp [hc]
    · next hc => simp [ih, Ne.symm hc]

theorem splitAt_cons (b c : UInt8) (s : Bytes) :
    splitAt b (c :: s) = if c = b then [] :: splitAt b s else (splitAt b s).modifyHead (c :: ·) := by
  have hne : splitAt b s ≠ [] := by
    cases s with
    | nil => exact List.cons_ne_nil _ _
    | cons d s =>
      rw [splitAt]
      split
      · exact List.cons_ne_nil _ _
      · split <;> exact List.cons_ne_nil _ _
  obtain ⟨p, ps, hps⟩ := List.exists_cons_of_ne_nil hne
  simp only [splitAt, hps, List.modifyHead_cons]

theorem indexOf?_of_isPrefix {sep s : Bytes} (h : sep <+: s) : indexOf? sep s = some 0 := by
  cases s with
  | nil =>
    rw [List.prefix_nil.1 h]
    rfl
  | cons c s =>
    rw [indexOf?, breakOn?, if_pos (List.isPrefixOf_iff_prefix.2 h)]
    rfl

theorem indexOf?_cons {sep s : Bytes} {c : UInt8} (h : ¬ sep <+: c :: s) :
    indexOf? sep (c :: s) = (indexOf? sep s).map (· + 1) := by
  rw [indexOf?, breakOn?, if_neg fun hbegins => h (List.isPrefixOf_iff_prefix.1 hbegins), Option.map_map, indexOf?,
    Option.map_map]
  rfl

theorem eq_of_breakOn? {sep s before after : Bytes} (h : breakOn? sep s = some (before, after)) :
    s = before ++ (sep ++ after) := by
  induction s generalizing before with
  | nil =>
    rw [breakOn?] at h
    split at h
    · next hempty =>
      cases h
      rw [List.isEmpty_iff.1 hempty]
      rfl
    · cases h
  | cons c s ih =>
    rw [breakOn?] at h
    split at h
    · next hbegins =>
      cases h
      exact (List.prefix_iff_eq_append.1 (List.isPrefixOf_iff_prefix.1 hbegins)).symm
    · obtain ⟨p, hp, hcons⟩ := Option.map_eq_some_iff.1 h
      cases hcons
      rw [List.cons_append, ← ih hp]

theorem isPrefix_drop_of_indexOf? {sep s : Bytes} {i : Nat} (h : indexOf? sep s = some i) : sep <+: s.drop i := by
  obtain ⟨p, hp, rfl⟩ := Option.map_eq_some_iff.1 h
  rw [eq_of_breakOn? hp, List.drop_left]
  exact List.prefix_append _ _

theorem mem_of_isPrefix_append_self {v w : Bytes} (hw : w ≠ []) (h : v <+: w ++ v) (hb : b ∈ v) : b ∈ w := by
  obtain ⟨rest, hrest⟩ := h
  -- The byte is one of the other text, or it stands as much further on as the other text is long.
  have hat : ∀ (i : Nat) (b : UInt8), v[i]? = some b → b ∈ w := by
    intro i
    induction i using Nat.strongRecOn with
    | ind i ih =>
      intro b hi
      have hlength : i < v.length := (List.getElem?_eq_some_iff.1 hi).1
      have happend : (v ++ rest)[i]? = v[i]? := List.getElem?_append_left hlength
      rw [← happend, hrest] at hi
      by_cases hlt : i < w.length
      · rw [List.getElem?_append_left hlt] at hi
        exact List.mem_of_getElem? hi
      · rw [List.getElem?_append_right (by omega)] at hi
        have hpos := List.length_pos_iff.2 hw
        exact ih (i - w.length) (by omega) b hi
  obtain ⟨i, hi⟩ := List.getElem?_of_mem hb
  exact hat i b hi

end PageTemplate.Bytes
