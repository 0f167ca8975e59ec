import Mathlib.Algebra.Ring.Nat
import PageTemplate.Proofs.Markup.Tags

/-!
Tokens cut at a separator. Cutting goes on from the end of each occurrence of the separator, so it comes to an end when the
separator is not empty or when the number of tokens is limited. The tokens are the parts of the text between the
occurrences and stand where these stand.
-/

namespace PageTemplate

namespace Bytes

variable {sep s : Bytes} {i : Nat}

/-- An occurrence is found no later than where the text has one. -/
theorem exists_indexOf?_le (h : sep <+: s.drop i) : ∃ j ≤ i, indexOf? sep s = some j := by
  induction s generalizing i with
  | nil => exact ⟨0, Nat.zero_le i, indexOf?_of_isPrefix (by simpa using h)⟩
  | cons c s ih =>
    by_cases hbegins : sep <+: c :: s
    · exact ⟨0, Nat.zero_le i, indexOf?_of_isPrefix hbegins⟩
    · cases i with
      | zero => exact absurd h hbegins
      | succ i =>
        obtain ⟨j, hj, hindex⟩ := ih h
        exact ⟨j + 1, Nat.succ_le_succ hj, by rw [indexOf?_cons hbegins, hindex]; rfl⟩

theorem not_isInfix_of_indexOf?_eq_none (h : indexOf? sep s = none) : ¬ sep <:+: s := by
  rintro ⟨a, b, rfl⟩
  obtain ⟨j, _, hj⟩ := @exists_indexOf?_le sep (a ++ sep ++ b) a.length (by simp)
  rw [h] at hj
  cases hj

theorem not_isInfix_take_of_indexOf? (hsep : sep ≠ []) (h : indexOf? sep s = some i) : ¬ sep <:+: s.take i := by
  rintro ⟨a, b, hab⟩
  have hs : s = a ++ (sep ++ (b ++ s.drop i)) := by
    rw [← List.append_assoc, ← List.append_assoc, hab, List.take_append_drop]
  have hlength := congrArg List.length hab
  have hpos := List.length_pos_iff.2 hsep
  obtain ⟨j, hj, hindex⟩ := @exists_indexOf?_le sep s a.length (by rw [hs, List.drop_left]; exact List.prefix_append _ _)
  rw [h] at hindex
  cases hindex
  simp only [List.length_append, List.length_take] at hlength
  omega

end Bytes

namespace Markup.Token

variable {t : Token} {sep : Bytes} {n : Int} {made offset : Nat} {ts : List Token}

/-- Cutting a token from an offset on, with some tokens made before, comes to an end and makes these ones. -/
inductive Cuts (t : Token) (sep : Bytes) (n : Int) : Nat → Nat → List Token → Prop where
  | last {made offset : Nat} : (n < 0 ∨ made < n - 1 → Bytes.indexOf? sep (t.value.drop offset) = none) →
      Cuts t sep n made offset [t.drop offset]
  | cut {made offset i : Nat} {ts : List Token} : n < 0 ∨ made < n - 1 →
      Bytes.indexOf? sep (t.value.drop offset) = some i → Cuts t sep n (made + 1) (offset + i + sep.length) ts →
      Cuts t sep n made offset (t.slice offset (offset + i) :: ts)

namespace Cuts

variable {tok : Token}

theorem unique {ts' : List Token} (h : Cuts t sep n made offset ts) (h' : Cuts t sep n made offset ts') : ts = ts' := by
  induction h generalizing ts' with
  | last hlast =>
    cases h' with
    | last => rfl
    | cut hmore hindex => cases (hlast hmore).symm.trans hindex
  | cut hmore hindex _ ih =>
    cases h' with
    | last hlast => cases (hlast hmore).symm.trans hindex
    | cut _ hindex' hrest =>
      cases hindex.symm.trans hindex'
      rw [ih hrest]

theorem not_endless (h : Cuts t sep n made offset ts) : ¬ (n < 0 ∧ sep = []) := by
  rintro ⟨hn, rfl⟩
  induction h with
  | last hlast => cases (hlast (.inl hn)).symm.trans (Bytes.indexOf?_of_isPrefix List.nil_prefix)
  | cut _ _ _ ih => exact ih

theorem of_pieces {cuts : Nat}
    (h : n < 0 ∧ sep ≠ [] ∧ (t.value.drop offset).length ≤ cuts ∨ 0 ≤ n ∧ cuts = (n - 1 - made).toNat) :
    Cuts t sep n made offset (t.place sep offset (pieces sep cuts (t.value.drop offset))) := by
  have hrest (offset : Nat) : t.place sep offset [t.value.drop offset] = [t.drop offset] := by
    simp only [place, slice, drop, Nat.add_sub_cancel_left, List.take_length]
  induction cuts generalizing made offset with
  | zero =>
    rw [pieces, hrest]
    refine .last fun hmore => ?_
    rcases h with ⟨_, hsep, hlength⟩ | ⟨_, hcuts⟩
    · rw [List.length_eq_zero_iff.1 (Nat.le_zero.1 hlength)]
      cases sep with
      | nil => exact absurd rfl hsep
      | cons => rfl
    · omega
  | succ cuts ih =>
    rw [pieces]
    cases hbreak : Bytes.breakOn? sep (t.value.drop offset) with
    | none =>
      dsimp only
      rw [hrest]
      exact .last fun _ => by rw [Bytes.indexOf?, hbreak]; rfl
    | some p =>
      have hvalue := Bytes.eq_of_breakOn? hbreak
      have hafter := drop_value_add (drop_value_add hvalue)
      refine .cut (by omega) (by rw [Bytes.indexOf?, hbreak]; rfl) ?_
      rw [← hafter]
      refine ih (h.imp (fun hall => ⟨hall.1, hall.2.1, ?_⟩) fun hsome => ⟨hsome.1, by omega⟩)
      obtain ⟨_, hsep, hlength⟩ := hall
      have hpos := List.length_pos_iff.2 hsep
      rw [hafter]
      rw [hvalue, List.length_append, List.length_append] at hlength
      omega

theorem ne_nil (h : Cuts t sep n made offset ts) : ts ≠ [] := by
  cases h <;> exact List.cons_ne_nil _ _

theorem join_eq (h : Cuts t sep n made offset ts) : Bytes.join sep (ts.map (·.value)) = t.value.drop offset := by
  induction h with
  | last => rfl
  | cut _ hindex hrest ih =>
    obtain ⟨p, hbreak, rfl⟩ := Option.map_eq_some_iff.1 hindex
    have hvalue := Bytes.eq_of_breakOn? hbreak
    obtain ⟨tok, ts, rfl⟩ := List.exists_cons_of_ne_nil hrest.ne_nil
    rw [List.map_cons, List.map_cons, Bytes.join, ← List.map_cons, ih, value_slice hvalue,
      drop_value_add (drop_value_add hvalue), hvalue, List.append_assoc]
    simp

/-- Each token stands where the tokens and separators before it end. -/
theorem slice_eq (h : Cuts t sep n made offset ts) {i : Nat} (htok : ts[i]? = some tok) :
    let start := offset + ((ts.take i).map (·.value.length + sep.length)).sum
    tok = t.slice start (start + tok.value.length) := by
  induction h generalizing i with
  | last =>
    cases i with
    | zero =>
      cases htok
      simp [slice, drop, List.take_of_length_le]
    | succ i => cases htok
  | cut _ hindex _ ih =>
    obtain ⟨p, hbreak, rfl⟩ := Option.map_eq_some_iff.1 hindex
    have hvalue := value_slice (Bytes.eq_of_breakOn? hbreak)
    cases i with
    | zero =>
      cases htok
      simp [hvalue]
    | succ i =>
      have hslice := ih htok
      simpa [hvalue, Nat.add_assoc] using hslice

/-- Only the last token can have the separator in it, and only if as many tokens as are wanted have been made. -/
theorem of_isInfix (h : Cuts t sep n made offset ts) (hsep : sep ≠ []) {i : Nat} (htok : ts[i]? = some tok)
    (hinside : sep <:+: tok.value) : i + 1 = ts.length ∧ 0 ≤ n ∧ made + ts.length = max (made + 1) n.toNat := by
  induction h generalizing i with
  | last hlast =>
    cases i with
    | zero =>
      cases htok
      have hdone := mt hlast fun hnone => Bytes.not_isInfix_of_indexOf?_eq_none hnone hinside
      refine ⟨rfl, by omega, ?_⟩
      rw [List.length_singleton]
      omega
    | succ i => cases htok
  | cut hmore hindex _ ih =>
    cases i with
    | zero =>
      cases htok
      exact absurd (by simpa [slice] using hinside) (Bytes.not_isInfix_take_of_indexOf? hsep hindex)
    | succ i =>
      have hlength := ih htok
      rw [List.length_cons]
      omega

end Cuts

theorem splitN?_eq_none_iff : t.splitN? sep n = none ↔ n < 0 ∧ sep = [] := by
  unfold splitN?
  split
  · next hn => simp [hn]
  · next hn => simp [hn]

theorem splitN?_eq_some_iff : t.splitN? sep n = some ts ↔ Cuts t sep n 0 0 ts := by
  have hcuts (ts' : List Token) (h : t.splitN? sep n = some ts') : Cuts t sep n 0 0 ts' := by
    have hends := mt splitN?_eq_none_iff.2 (h ▸ Option.some_ne_none ts')
    unfold splitN? at h
    split at h
    · next hn =>
      have hsep : sep ≠ [] := fun hsep => hends ⟨hn, hsep⟩
      rw [if_neg (mt List.isEmpty_iff.1 hsep)] at h
      cases h
      exact .of_pieces (.inl ⟨hn, hsep, Nat.le_refl _⟩)
    · cases h
      exact .of_pieces (.inr ⟨by omega, by simp⟩)
  refine ⟨hcuts ts, fun h => ?_⟩
  obtain ⟨ts', hsplit⟩ := Option.ne_none_iff_exists'.1 (mt splitN?_eq_none_iff.1 h.not_endless)
  rw [h.unique (hcuts ts' hsplit), hsplit]

/-- Cutting a token comes to an end, unless it is to be cut at every empty text. The tokens are the parts of its text
between separators, each where its part stands. Of these only the last can have the separator in it, if this is not
empty, and only when no more tokens are wanted. -/
theorem tokens_between_separators (t : Token) (sep : Bytes) (n : Int) (h : 0 ≤ n ∨ sep ≠ []) :
    ∃ ts, (∀ ts', Cuts t sep n 0 0 ts' ↔ ts' = ts) ∧ t.splitN? sep n = some ts ∧
      Bytes.join sep (ts.map (·.value)) = t.value ∧
      ∀ (i : Nat) (tok : Token), ts[i]? = some tok →
        let start := ((ts.take i).map (·.value.length + sep.length)).sum
        tok = t.slice start (start + tok.value.length) ∧ tok.pos = t.pos + start ∧
          (sep ≠ [] → sep <:+: tok.value → i + 1 = ts.length ∧ 0 ≤ n ∧ ts.length = max 1 n.toNat) := by
  obtain ⟨ts, hsplit⟩ := Option.ne_none_iff_exists'.1
    (mt (@splitN?_eq_none_iff t sep n).1 fun hends => h.elim (Int.not_le.2 hends.1) (absurd hends.2))
  have hcuts := splitN?_eq_some_iff.1 hsplit
  refine ⟨ts, fun ts' => ⟨fun h => h.unique hcuts, fun h => h ▸ hcuts⟩, hsplit, hcuts.join_eq, fun i tok htok => ?_⟩
  have hslice := hcuts.slice_eq htok
  rw [Nat.zero_add] at hslice
  refine ⟨hslice, congrArg Token.pos hslice, fun hsep hinside => ?_⟩
  simpa using hcuts.of_isInfix hsep htok hinside

theorem tokens_between_separators_overlapping :
    let t := whole (utf8 "aaaab") []
    (0 ≤ (-1 : Int) ∨ utf8 "aa" ≠ []) ∧ ∃ ts, t.splitN? (utf8 "aa") (-1) = some ts ∧
      ts.map (·.value) = [[], [], utf8 "b"] ∧ Bytes.join (utf8 "aa") (ts.map (·.value)) = t.value := by
  intro t
  obtain ⟨ts, _, hsplit, hjoin, _⟩ := tokens_between_separators t (utf8 "aa") (-1) (.inr (by decide +kernel))
  have hvalues : (t.splitN? (utf8 "aa") (-1)).map (·.map (·.value)) = some [[], [], utf8 "b"] := by decide +kernel
  rw [hsplit] at hvalues
  exact ⟨.inr (by decide +kernel), ts, hsplit, Option.some.inj hvalues, hjoin⟩

/-- An empty separator is never passed: cutting at all of its occurrences does not end, and cutting at some of them makes
empty tokens, which have the separator in them. -/
theorem empty_separator_not_passed :
    let t := whole (utf8 "ab") []
    (¬ ∃ ts, Cuts t [] (-1) 0 0 ts) ∧ t.splitN? [] 3 = some [t.slice 0 0, t.slice 0 0, t] ∧
      [] <:+: (t.slice 0 0).value := by
  refine ⟨fun ⟨ts, h⟩ => h.not_endless ⟨by decide, rfl⟩, by decide +kernel, List.nil_infix⟩

end Markup.Token

end PageTemplate
