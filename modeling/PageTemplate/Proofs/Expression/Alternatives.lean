import PageTemplate.Proofs.Assoc
import PageTemplate.Proofs.Expression.Fragments

/-!
What a source is made of: the name of a type, and segments between pipes, which are alternatives or parts of them.
-/

namespace PageTemplate.Expression

variable {source : Bytes}

theorem joinPipes_cons (s : Bytes) {segs : List Bytes} (h : segs ≠ []) :
    joinPipes (s :: segs) = s ++ Byte.pipe :: joinPipes segs := by
  cases segs with
  | nil => exact absurd rfl h
  | cons t segs => rw [joinPipes, Bytes.join, ← joinPipes, List.append_assoc, List.singleton_append]; simp

theorem joinPipes_append {segs more : List Bytes} (hsegs : segs ≠ []) (hmore : more ≠ []) :
    joinPipes (segs ++ more) = joinPipes segs ++ Byte.pipe :: joinPipes more := by
  induction segs with
  | nil => exact absurd rfl hsegs
  | cons s segs ih =>
    cases segs with
    | nil => exact joinPipes_cons s hmore
    | cons t segs =>
      rw [List.cons_append, joinPipes_cons s (by simp), ih (by simp), joinPipes_cons s (by simp), List.append_assoc,
        List.cons_append]

theorem joinPipes_append_head (s t : Bytes) (segs : List Bytes) :
    joinPipes ((s ++ t) :: segs) = s ++ joinPipes (t :: segs) := by
  cases segs with
  | nil => rfl
  | cons u segs => rw [joinPipes_cons _ (by simp), joinPipes_cons t (by simp), List.append_assoc]

theorem joinPipes_merge (s t : Bytes) (segs : List Bytes) :
    joinPipes ((s ++ Byte.pipe :: t) :: segs) = joinPipes (s :: t :: segs) := by
  rw [joinPipes_append_head, joinPipes_cons s (by simp)]
  exact congrArg (s ++ ·) (joinPipes_append_head [Byte.pipe] t segs)

theorem joinPipes_pushByte (c : UInt8) (segs : List Bytes) : joinPipes (pushByte c segs) = c :: joinPipes segs := by
  rcases segs with _ | ⟨s, _ | ⟨t, segs⟩⟩ <;> rfl

theorem segmentsFrom_ne_nil (quote : Option UInt8) (depth : Nat) (s : Bytes) : segmentsFrom quote depth s ≠ [] := by
  have hpush : ∀ (c : UInt8) (segs : List Bytes), pushByte c segs ≠ [] := by
    intro c segs
    cases segs <;> simp [pushByte]
  fun_cases segmentsFrom quote depth s <;> simp_all

theorem joinPipes_segmentsFrom (quote : Option UInt8) (depth : Nat) (s : Bytes) :
    joinPipes (segmentsFrom quote depth s) = s := by
  fun_induction segmentsFrom quote depth s with
  | case1 | case2 => rfl
  | case3 q depth e s ih => rw [joinPipes_pushByte, joinPipes_pushByte, ih]
  | case4 q depth c s _ ih => rw [joinPipes_pushByte, ih]
  | case5 depth c s _ ih => rw [joinPipes_pushByte, ih]
  | case6 depth c s _ _ ih => rw [joinPipes_pushByte, ih]
  | case7 depth c s _ _ _ ih => rw [joinPipes_pushByte, ih]
  | case8 depth c _ _ _ hpipe ih =>
    simp only [Bool.and_eq_true, decide_eq_true_eq] at hpipe
    rw [joinPipes_cons _ (segmentsFrom_ne_nil _ _ _), ih, hpipe.1, List.nil_append]
  | case9 depth c _ _ _ _ s ih => rw [joinPipes_pushByte, joinPipes_pushByte, ih]
  | case10 depth c _ _ _ hpipe e s _ ih =>
    simp only [Bool.and_eq_true, decide_eq_true_eq] at hpipe
    rw [joinPipes_cons _ (segmentsFrom_ne_nil _ _ _), ih, hpipe.1, List.nil_append]
  | case11 depth c s _ _ _ _ ih => rw [joinPipes_pushByte, ih]

theorem joinPipes_splitPipes (source : Bytes) : joinPipes (splitPipes source) = source :=
  joinPipes_segmentsFrom none 0 source

theorem Registry.typeName?_eq_some {name rest : Bytes} (h : Registry.typeName? source = some (name, rest)) :
    ∃ blanks, source = blanks ++ name ++ Byte.colon :: rest := by
  unfold Registry.typeName? at h
  extract_lets s at h
  split at h
  · split at h
    · next c after hafter =>
      split at h
      · next hc =>
        cases h
        refine ⟨source.takeWhile Byte.isBlank, ?_⟩
        rw [← hc, ← hafter, List.append_assoc, List.takeWhile_append_dropWhile, List.takeWhile_append_dropWhile]
      · cases h
    · cases h
  · cases h

theorem Registry.exists_splitType (r : Registry) (source : Bytes) :
    ∃ before, source = before ++ (r.splitType source).2.1 := by
  unfold Registry.splitType
  split
  · next name rest hname =>
    split
    · obtain ⟨blanks, hsource⟩ := Registry.typeName?_eq_some hname
      exact ⟨blanks ++ name ++ [Byte.colon], by rw [hsource]; simp⟩
    · exact ⟨[], rfl⟩
  · exact ⟨[], rfl⟩

def termType : ExpressionType := ⟨.term, true⟩

end PageTemplate.Expression
