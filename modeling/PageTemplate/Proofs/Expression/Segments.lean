import Mathlib.Data.List.DropRight
import PageTemplate.Proofs.Expression.Alternatives

/-!
Where a source is cut into segments: just at the pipes outside quotes and brackets that are not one of two. Pipes that
follow each other are read two at a time from the left, so of three pipes the last one is a cut.
-/

namespace PageTemplate.Expression

variable {segs : List Bytes} {p s rest : Bytes} {c : UInt8}

/-- Where a reader stands in a source: outside quotes, inside brackets, or in a quotation, where a backslash quotes what
is next. -/
inductive Standing where
  | outside (depth : Nat)
  | quoted (quote : UInt8) (depth : Nat)
  | escaped (quote : UInt8) (depth : Nat)
  deriving DecidableEq, Repr

variable {st : Standing}

namespace Standing

/-- Where a reader stands after one more byte. -/
def next : Standing → UInt8 → Standing
  | outside depth, c =>
    if opensQuote c then quoted c depth
    else if opensBracket c then outside (depth + 1)
    else if closesBracket c then outside (depth - 1)
    else outside depth
  | quoted q depth, c =>
    if c = Byte.backslash then escaped q depth else if c = q then outside depth else quoted q depth
  | escaped q depth, _ => quoted q depth

/-- The quotation that a reader stands in has been opened by a byte that opens quotations. -/
def Opened : Standing → Prop
  | outside _ => True
  | quoted q _ | escaped q _ => opensQuote q = true

theorem Opened.next (h : st.Opened) (c : UInt8) : (st.next c).Opened := by
  cases st with
  | outside depth =>
    rw [Standing.next]
    split
    · assumption
    split
    · trivial
    split <;> trivial
  | quoted q depth =>
    rw [Standing.next]
    split
    · exact h
    split
    · trivial
    · exact h
  | escaped q depth => exact h

theorem eq_outside_of_pipes (h : st.Opened) {p : Bytes} (hp : ∀ b ∈ p, b = Byte.pipe)
    (hst : p.foldl Standing.next st = outside 0) : st = outside 0 := by
  induction p generalizing st with
  | nil => exact hst
  | cons b p ih =>
    obtain ⟨hb, hrest⟩ := List.forall_mem_cons.1 hp
    have hnext := ih (h.next b) hrest hst
    subst hb
    cases st with
    | outside depth => exact hnext
    | quoted q depth =>
      have hq : Byte.pipe ≠ q := by
        rintro rfl
        cases h
      rw [Standing.next, if_neg (by decide), if_neg hq] at hnext
      cases hnext
    | escaped q depth => cases hnext

end Standing

def pipesAtEnd (p : Bytes) : Nat := (p.rtakeWhile (· == Byte.pipe)).length

theorem pipesAtEnd_concat (p : Bytes) (b : UInt8) :
    pipesAtEnd (p ++ [b]) = if b = Byte.pipe then pipesAtEnd p + 1 else 0 := by
  rw [pipesAtEnd, List.rtakeWhile_concat]
  by_cases hb : b = Byte.pipe <;> simp [hb, pipesAtEnd]

theorem pipesAtEnd_cons (c : UInt8) (p : Bytes) :
    pipesAtEnd (c :: p) = if (c :: p).all (· == Byte.pipe) then p.length + 1 else pipesAtEnd p := by
  induction p using List.reverseRecOn with
  | nil => by_cases hc : c = Byte.pipe <;> simp [pipesAtEnd, List.rtakeWhile, hc]
  | append_singleton p b ih =>
    rw [← List.cons_append, pipesAtEnd_concat, pipesAtEnd_concat, List.all_append]
    by_cases hb : b = Byte.pipe
    · have hlast : [b].all (· == Byte.pipe) = true := by simpa using hb
      rw [if_pos hb, if_pos hb, ih, hlast, Bool.and_true, List.length_append]
      by_cases hall : (c :: p).all (· == Byte.pipe) = true
      · rw [if_pos hall, if_pos hall]
        rfl
      · rw [if_neg hall, if_neg hall]
    · simp [hb]

/-- A pipe separates alternatives: it is outside quotes and brackets, and alone if the pipes around it are paired. -/
def Separates (st : Standing) (p s : Bytes) : Prop :=
  p.foldl Standing.next st = .outside 0 ∧ pipesAtEnd p % 2 = 0 ∧ s.head? ≠ some Byte.pipe

/-- The segments are cut between two texts. -/
def CutsAt (segs : List Bytes) (p s : Bytes) : Prop :=
  ∃ front back, front ≠ [] ∧ back ≠ [] ∧ segs = front ++ back ∧ joinPipes front = p ∧ joinPipes back = s

theorem not_cutsAt_singleton (seg p s : Bytes) : ¬ CutsAt [seg] p s := by
  rintro ⟨front, back, hfront, hback, hsegs, _, _⟩
  have hlength := congrArg List.length hsegs
  have hfront := List.length_pos_iff.2 hfront
  have hback := List.length_pos_iff.2 hback
  simp only [List.length_singleton, List.length_append] at hlength
  omega

theorem cutsAt_cons {seg : Bytes} (h : segs ≠ []) :
    CutsAt (seg :: segs) p s ↔
      (p = seg ∧ joinPipes segs = s) ∨ ∃ p', p = seg ++ Byte.pipe :: p' ∧ CutsAt segs p' s := by
  constructor
  · rintro ⟨front, back, hfront, hback, hsegs, rfl, rfl⟩
    obtain ⟨seg', front, rfl⟩ := List.exists_cons_of_ne_nil hfront
    cases hsegs
    cases front with
    | nil => exact .inl ⟨rfl, rfl⟩
    | cons seg' front => exact .inr ⟨_, joinPipes_cons _ (by simp), _, back, by simp, hback, rfl, rfl, rfl⟩
  · rintro (⟨rfl, rfl⟩ | ⟨p', rfl, front, back, hfront, hback, rfl, rfl, rfl⟩)
    · exact ⟨[p], segs, by simp, h, rfl, rfl, rfl⟩
    · exact ⟨seg :: front, back, by simp, hback, rfl, joinPipes_cons seg hfront, rfl⟩

theorem cutsAt_pushByte :
    CutsAt (pushByte c segs) p s ↔ ∃ p', p = c :: p' ∧ CutsAt segs p' s := by
  constructor
  · intro h
    cases segs with
    | nil => exact absurd h (not_cutsAt_singleton [c] p s)
    | cons seg segs =>
      obtain ⟨front, back, hfront, hback, hsegs, rfl, rfl⟩ := h
      obtain ⟨seg', front, rfl⟩ := List.exists_cons_of_ne_nil hfront
      cases hsegs
      exact ⟨_, joinPipes_pushByte c (seg :: front), seg :: front, back, by simp, hback, rfl, rfl, rfl⟩
  · rintro ⟨p', rfl, front, back, hfront, hback, rfl, rfl, rfl⟩
    obtain ⟨seg, front, rfl⟩ := List.exists_cons_of_ne_nil hfront
    exact ⟨pushByte c (seg :: front), back, by simp [pushByte], hback, rfl, joinPipes_pushByte _ _, rfl⟩

/-! ### Where a source is cut -/

theorem separates_cons (hst : st.Opened) (hc : st ≠ .outside 0 ∨ c ≠ Byte.pipe) :
    (c :: rest = p ++ Byte.pipe :: s ∧ Separates st p s) ↔
      ∃ p', p = c :: p' ∧ rest = p' ++ Byte.pipe :: s ∧ Separates (st.next c) p' s := by
  have hpipes : ∀ p' : Bytes, p'.foldl Standing.next (st.next c) = .outside 0 →
      pipesAtEnd (c :: p') = pipesAtEnd p' := by
    intro p' hend
    rw [pipesAtEnd_cons, if_neg]
    intro hall
    have hall : ∀ b ∈ c :: p', b = Byte.pipe := by simpa using hall
    have houtside := Standing.eq_outside_of_pipes hst hall hend
    exact hc.elim (fun h => h houtside) fun h => h (hall c List.mem_cons_self)
  constructor
  · rintro ⟨htext, hend, hparity, hhead⟩
    cases p with
    | nil =>
      cases htext
      exact absurd rfl (hc.resolve_left fun h => h hend)
    | cons b p =>
      cases htext
      exact ⟨p, rfl, rfl, hend, hpipes p hend ▸ hparity, hhead⟩
  · rintro ⟨p', rfl, rfl, hend, hparity, hhead⟩
    exact ⟨rfl, hend, (hpipes p' hend).symm ▸ hparity, hhead⟩

theorem separates_pipes :
    (Byte.pipe :: Byte.pipe :: rest = p ++ Byte.pipe :: s ∧ Separates (.outside 0) p s) ↔
      ∃ p', p = Byte.pipe :: Byte.pipe :: p' ∧ rest = p' ++ Byte.pipe :: s ∧ Separates (.outside 0) p' s := by
  have hpipes : ∀ p' : Bytes, pipesAtEnd (Byte.pipe :: Byte.pipe :: p') % 2 = pipesAtEnd p' % 2 := by
    intro p'
    rw [pipesAtEnd_cons, pipesAtEnd_cons, List.all_cons, List.all_cons, BEq.rfl, Bool.true_and, Bool.true_and]
    split
    · next hall =>
      have hself : pipesAtEnd p' = p'.length := by rw [pipesAtEnd, List.rtakeWhile_eq_self_iff.2 (by simpa using hall)]
      rw [hself, List.length_cons, Nat.add_assoc, Nat.add_mod_right]
    · rfl
  constructor
  · rintro ⟨htext, hend, hparity, hhead⟩
    rcases p with _ | ⟨b, _ | ⟨b', p⟩⟩
    · cases htext
      exact absurd rfl hhead
    · cases htext
      exact absurd hparity (by decide)
    · cases htext
      exact ⟨p, rfl, rfl, hend, hpipes p ▸ hparity, hhead⟩
  · rintro ⟨p', rfl, rfl, hend, hparity, hhead⟩
    exact ⟨rfl, hend, (hpipes p').symm ▸ hparity, hhead⟩

theorem separates_pipe (hrest : rest.head? ≠ some Byte.pipe) :
    (Byte.pipe :: rest = p ++ Byte.pipe :: s ∧ Separates (.outside 0) p s) ↔
      (p = [] ∧ rest = s) ∨ ∃ p', p = Byte.pipe :: p' ∧ rest = p' ++ Byte.pipe :: s ∧ Separates (.outside 0) p' s := by
  -- What follows begins with another byte, so the pipe is not among those at the end.
  have hpipes : ∀ p' : Bytes, rest = p' ++ Byte.pipe :: s → pipesAtEnd (Byte.pipe :: p') = pipesAtEnd p' := by
    rintro p' rfl
    rw [pipesAtEnd_cons, if_neg]
    intro hall
    cases p' with
    | nil => exact hrest rfl
    | cons b p' =>
      have hb : b = Byte.pipe := eq_of_beq (List.all_eq_true.1 hall b (by simp))
      exact hrest (congrArg some hb)
  constructor
  · rintro ⟨htext, hend, hparity, hhead⟩
    cases p with
    | nil =>
      cases htext
      exact .inl ⟨rfl, rfl⟩
    | cons b p =>
      injection htext with hb htext
      subst hb
      exact .inr ⟨p, rfl, htext, hend, hpipes p htext ▸ hparity, hhead⟩
  · rintro (⟨rfl, rfl⟩ | ⟨p', rfl, htext, hend, hparity, hhead⟩)
    · exact ⟨rfl, rfl, rfl, hrest⟩
    · exact ⟨congrArg (Byte.pipe :: ·) htext, hend, (hpipes p' htext).symm ▸ hparity, hhead⟩

theorem cutsAt_pushByte_iff (st : Standing) (hst : st.Opened) (hc : st ≠ .outside 0 ∨ c ≠ Byte.pipe)
    (h : ∀ p, CutsAt segs p s ↔ rest = p ++ Byte.pipe :: s ∧ Separates (st.next c) p s) (p : Bytes) :
    CutsAt (pushByte c segs) p s ↔ c :: rest = p ++ Byte.pipe :: s ∧ Separates st p s := by
  rw [cutsAt_pushByte, separates_cons hst hc]
  simp only [h]

theorem cutsAt_segmentsFrom (quote : Option UInt8) (depth : Nat) (source s : Bytes)
    (hquote : ∀ q ∈ quote, opensQuote q = true) (p : Bytes) :
    CutsAt (segmentsFrom quote depth source) p s ↔
      source = p ++ Byte.pipe :: s ∧ Separates (quote.elim (.outside depth) (.quoted · depth)) p s := by
  have hcut : ∀ {rest : Bytes}, rest.head? ≠ some Byte.pipe →
      (∀ p, CutsAt (segmentsFrom none 0 rest) p s ↔ rest = p ++ Byte.pipe :: s ∧ Separates (.outside 0) p s) →
      ∀ p, CutsAt ([] :: segmentsFrom none 0 rest) p s ↔
        Byte.pipe :: rest = p ++ Byte.pipe :: s ∧ Separates (.outside 0) p s := by
    intro rest hrest ih p
    rw [cutsAt_cons (segmentsFrom_ne_nil _ _ _), separates_pipe hrest, joinPipes_segmentsFrom]
    simp only [List.nil_append, ih]
  fun_induction segmentsFrom quote depth source generalizing p with
  | case1 quote depth => simp [not_cutsAt_singleton]
  | case2 q depth =>
    refine iff_of_false (not_cutsAt_singleton _ _ _) fun h => ?_
    have hmem : Byte.pipe ∈ [Byte.backslash] := by
      rw [h.1]
      simp
    exact absurd hmem (by decide)
  | case3 q depth e rest ih =>
    have hq : opensQuote q = true := hquote q rfl
    refine cutsAt_pushByte_iff (.quoted q depth) hq (.inl (by simp)) (fun p => ?_) p
    exact cutsAt_pushByte_iff (.escaped q depth) hq (.inl (by simp)) (ih hquote) p
  | case4 q depth c rest hescape ih =>
    refine cutsAt_pushByte_iff (.quoted q depth) (hquote q rfl) (.inl (by simp)) (fun p => ?_) p
    have hnext : (Standing.quoted q depth).next c =
        (if c = q then none else some q).elim (.outside depth) (.quoted · depth) := by
      rw [Standing.next, if_neg hescape]
      split <;> rfl
    rw [hnext]
    refine ih (fun q' hq' => ?_) p
    split at hq'
    · cases hq'
    · exact hquote q' hq'
  | case5 depth c rest hopens ih =>
    refine cutsAt_pushByte_iff (.outside depth) trivial (.inr ?_) (fun p => ?_) p
    · rintro rfl
      cases hopens
    · rw [Standing.next, if_pos hopens]
      exact ih (by simpa using hopens) p
  | case6 depth c rest hplain hopens ih =>
    refine cutsAt_pushByte_iff (.outside depth) trivial (.inr ?_) (fun p => ?_) p
    · rintro rfl
      cases hopens
    · rw [Standing.next, if_neg hplain, if_pos hopens]
      exact ih (by simp) p
  | case7 depth c rest hplain hbracket hcloses ih =>
    refine cutsAt_pushByte_iff (.outside depth) trivial (.inr ?_) (fun p => ?_) p
    · rintro rfl
      cases hcloses
    · rw [Standing.next, if_neg hplain, if_neg hbracket, if_pos hcloses]
      exact ih (by simp) p
  | case8 depth c _ _ _ hpipe ih =>
    simp only [Bool.and_eq_true, decide_eq_true_eq] at hpipe
    obtain ⟨rfl, rfl⟩ := hpipe
    exact hcut (by simp) (ih (by simp)) p
  | case9 depth c _ _ _ hpipe rest ih =>
    simp only [Bool.and_eq_true, decide_eq_true_eq] at hpipe
    obtain ⟨rfl, rfl⟩ := hpipe
    rw [Option.elim_none, separates_pipes, cutsAt_pushByte]
    simp only [cutsAt_pushByte]
    constructor
    · rintro ⟨_, rfl, p', rfl, h⟩
      exact ⟨p', rfl, (ih (by simp) p').1 h⟩
    · rintro ⟨p', rfl, h⟩
      exact ⟨_, rfl, p', rfl, (ih (by simp) p').2 h⟩
  | case10 depth c _ _ _ hpipe d rest hd ih =>
    simp only [Bool.and_eq_true, decide_eq_true_eq] at hpipe
    obtain ⟨rfl, rfl⟩ := hpipe
    exact hcut (by simpa using hd) (ih (by simp)) p
  | case11 depth c rest hplain hbracket hclosed hpipe ih =>
    refine cutsAt_pushByte_iff (.outside depth) trivial ?_ (fun p => ?_) p
    · rw [Bool.and_eq_true, decide_eq_true_eq, decide_eq_true_eq, not_and_or] at hpipe
      exact hpipe.symm.imp_left fun hdepth h => hdepth (Standing.outside.inj h)
    · rw [Standing.next, if_neg hplain, if_neg hbracket, if_neg hclosed]
      exact ih (by simp) p

theorem cutsAt_splitPipes (source p s : Bytes) :
    CutsAt (splitPipes source) p s ↔ source = p ++ Byte.pipe :: s ∧ Separates (.outside 0) p s :=
  cutsAt_segmentsFrom none 0 source s (by simp) p

end PageTemplate.Expression
