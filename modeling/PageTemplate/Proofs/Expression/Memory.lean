import PageTemplate.Proofs.Expression.Alternatives
import PageTemplate.Proofs.Expression.Tiling

/-!
The memory of an engine cannot be seen in its answers. Whatever was compiled before, a source compiles or fails as on an
engine that remembers nothing and has the same types. With enough fuel, the fuel does not matter: what is compiled
inside a source is shorter, unless the source is circular, and then no fuel is enough. And each remembered result is
what the registry without memory compiles its source to, since registering a type forgets everything.
-/

namespace PageTemplate.Expression

open Engine (Compiling)

variable {taken text : Bytes} {segs : List Bytes} {t : ExpressionType}

/-! ### Answers -/

/-- What computations are said to answer goes from their steps to the whole. -/
structure Answering (m : Type → Type) [Monad m] [MonadExceptOf Failure m]
    (A : {α : Type} → m α → Except Failure α → Prop) : Prop where
  pure {α : Type} (a : α) : A (Pure.pure a) (.ok a)
  throw {α : Type} (f : Failure) : A (throwThe Failure f : m α) (.error f)
  bind {α β : Type} {x : m β} {y : Except Failure β} {f : β → m α} {g : β → Except Failure α} :
    A x y → (∀ b, y = .ok b → A (f b) (g b)) → A (x >>= f) (y >>= g)
  tryCatch {α : Type} {x : m α} {y : Except Failure α} {f : Failure → m α} {g : Failure → Except Failure α} :
    A x y → (∀ e, A (f e) (g e)) → A (tryCatchThe Failure x f) (tryCatchThe Failure y g)

theorem answering_except : Answering (Except Failure) fun x y => x = y where
  pure _ := rfl
  throw _ := rfl
  bind {_ _ x y f g} hx hf := by
    subst hx
    cases x with
    | error e => rfl
    | ok b => exact hf b rfl
  tryCatch {_ x y f g} hx hf := by
    subst hx
    cases x with
    | error e => exact hf e
    | ok b => rfl

theorem suffix_of_compileFewest {α : Type} {compile : Bytes → Except Failure α} {rest : List Bytes}
    {a : α} (h : compileFewest compile taken segs = .ok (a, rest)) : rest <:+ segs := by
  have htaken : ∀ taken (all : List Bytes), (do return (← compile taken, all)) = Except.ok (a, rest) → rest = all := by
    intro taken all hall
    cases hcompile : compile taken with
    | error e =>
      rw [hcompile] at hall
      cases hall
    | ok b =>
      rw [hcompile] at hall
      cases hall
      rfl
  induction segs generalizing taken with
  | nil => exact htaken taken [] h ▸ List.suffix_rfl
  | cons seg segs ih =>
    unfold compileFewest at h
    rcases hfirst : (do return (← compile taken, seg :: segs) : Except Failure (α × List Bytes)) with e | ⟨b, all⟩
    · rw [hfirst] at h
      exact (ih h).trans (List.suffix_cons seg segs)
    · rw [hfirst] at h
      cases h
      exact htaken taken (seg :: segs) hfirst ▸ List.suffix_rfl

theorem length_joinPipes_lt {rest : List Bytes} (seg : Bytes) (h : rest <:+ segs) (hrest : rest ≠ []) :
    (joinPipes rest).length < (joinPipes (seg :: segs)).length := by
  obtain ⟨used, rfl⟩ := h
  rw [← List.cons_append, joinPipes_append (by simp) hrest, List.length_append, List.length_cons]
  omega

theorem joinPipes_take_isPrefix (seg : Bytes) (segs : List Bytes) (n : Nat) :
    joinPipes (seg :: segs.take n) <+: joinPipes (seg :: segs) := by
  by_cases hdrop : segs.drop n = []
  · have htake : segs.take n = segs := List.take_of_length_le (List.drop_eq_nil_iff.1 hdrop)
    exact ⟨[], by rw [htake, List.append_nil]⟩
  · refine ⟨Byte.pipe :: joinPipes (segs.drop n), ?_⟩
    rw [← joinPipes_append (by simp) hdrop, List.cons_append, List.take_append_drop]

namespace Answering

variable {m : Type → Type} [Monad m] [MonadExceptOf Failure m] {A : {α : Type} → m α → Except Failure α → Prop}
  (hA : Answering m A) {length : Nat}
include hA

theorem ofExcept {α : Type} (x : Except Failure α) : A (MonadExcept.ofExcept x) (MonadExcept.ofExcept x) := by
  cases x with
  | ok a => exact hA.pure a
  | error f => exact hA.throw f

theorem compileFewest {α : Type} {compile : Bytes → m α} {compile' : Bytes → Except Failure α}
    (h : ∀ n, A (compile (joinPipes (taken :: segs.take n))) (compile' (joinPipes (taken :: segs.take n)))) :
    A (compileFewest compile taken segs) (compileFewest compile' taken segs) := by
  have htaken : ∀ all : List Bytes, A (do return (← compile taken, all)) (do return (← compile' taken, all)) :=
    fun all => hA.bind (h 0) fun _ _ => hA.pure _
  induction segs generalizing taken with
  | nil => exact htaken []
  | cons seg segs ih =>
    have hmore : ∀ n, A (compile (joinPipes ((taken ++ Byte.pipe :: seg) :: segs.take n)))
        (compile' (joinPipes ((taken ++ Byte.pipe :: seg) :: segs.take n))) := by
      intro n
      rw [joinPipes_merge]
      exact h (n + 1)
    exact hA.tryCatch (htaken (seg :: segs)) fun _ =>
      ih hmore fun all => hA.bind (hmore 0) fun _ _ => hA.pure _

section Alternatives

variable {r : Registry} {compile : ExpressionType → Bytes → m Evaluator}
  {compile' : ExpressionType → Bytes → Except Failure Evaluator}

theorem further {fuel : Nat} {body : Bytes}
    (hfirst : ∀ n, A (compile t (joinPipes (body :: segs.take n))) (compile' t (joinPipes (body :: segs.take n))))
    (hlater : ∀ rest, rest <:+ segs →
      A (compileAlternatives r compile fuel none rest) (compileAlternatives r compile' fuel none rest)) :
    A (do
        let (e, rest) ← Expression.compileFewest (compile t) body segs
        return e :: (← compileAlternatives r compile fuel none rest))
      (do
        let (e, rest) ← Expression.compileFewest (compile' t) body segs
        return e :: (← compileAlternatives r compile' fuel none rest)) :=
  hA.bind (hA.compileFewest hfirst) fun b hb =>
    hA.bind (hlater b.2 (suffix_of_compileFewest (a := b.1) hb)) fun _ _ => hA.pure _

theorem compileAlternatives_none (h : ∀ t s, s.length < length → A (compile t s) (compile' t s))
    (fuel : Nat) (hsegs : segs ≠ [] → (joinPipes segs).length < length) :
    A (compileAlternatives r compile fuel none segs) (compileAlternatives r compile' fuel none segs) := by
  induction fuel generalizing segs with
  | zero =>
    unfold Expression.compileAlternatives
    exact hA.pure _
  | succ fuel ih =>
    cases segs with
    | nil => exact hA.pure _
    | cons seg segs =>
      have hlength := hsegs (by simp)
      obtain ⟨before, hbefore⟩ := r.exists_splitType seg
      unfold Expression.compileAlternatives
      dsimp only
      rcases hsplit : r.splitType seg with ⟨name, body, named⟩
      rw [hsplit] at hbefore
      rw [hbefore, joinPipes_append_head, List.length_append] at hlength
      dsimp only at hlength ⊢
      cases r.types.get? name with
      | none => exact hA.throw _
      | some t =>
        dsimp only
        split
        · exact hA.bind (h t _ (by omega)) fun _ _ => hA.pure _
        · refine hA.further (fun n => h t _ ?_) fun rest hrest => ih fun hne => ?_
          · have htake := (joinPipes_take_isPrefix body segs n).length_le
            omega
          · have hshorter := length_joinPipes_lt body hrest hne
            omega

theorem compileAlternatives_splitPipes {source : Bytes} (fuel : Nat)
    (hfirst : ∀ s, s <+: source → A (compile t s) (compile' t s))
    (hlater : ∀ t s, s.length < source.length → A (compile t s) (compile' t s)) :
    A (compileAlternatives r compile (fuel + 1) (some t) (splitPipes source))
      (compileAlternatives r compile' (fuel + 1) (some t) (splitPipes source)) := by
  have hjoin := joinPipes_splitPipes source
  cases hsegs : splitPipes source with
  | nil => exact hA.pure _
  | cons seg segs =>
    rw [hsegs] at hjoin
    refine hA.further (fun n => ?_) fun rest hrest => ?_
    · rw [← hjoin] at hfirst
      exact hfirst _ (joinPipes_take_isPrefix seg segs n)
    · refine hA.compileAlternatives_none hlater fuel fun hne => ?_
      rw [← hjoin]
      exact length_joinPipes_lt seg hrest hne

end Alternatives

section Fragments

variable {check : Bytes → m Unit} {check' : Bytes → Except Failure Unit}
variable {s : Bytes}

theorem firstCompiling {candidates : List Bytes} (h : ∀ c ∈ candidates, A (check c) (check' c))
    (failed : Option Failure) :
    A (firstCompiling check failed candidates) (firstCompiling check' failed candidates) := by
  induction candidates generalizing failed with
  | nil =>
    cases failed with
    | none => exact hA.pure _
    | some f => exact hA.throw f
  | cons c cs ih =>
    have htried : A (tryCatchThe Failure (do check c; return none) fun f => return some f)
        (tryCatchThe Failure (do check' c; return none) fun f => return some f) :=
      hA.tryCatch (hA.bind (h c List.mem_cons_self) fun _ _ => hA.pure _) fun _ => hA.pure _
    refine hA.bind htried fun answer _ => ?_
    cases answer with
    | none => exact hA.pure _
    | some f => exact ih (fun c hc => h c (List.mem_cons_of_mem _ hc)) _

theorem bracedSource? (h : ∀ c, c.length < s.length → A (check c) (check' c)) :
    A (bracedSource? check s) (bracedSource? check' s) := by
  refine hA.firstCompiling (fun c hc => h c ?_) none
  obtain ⟨source, rest, rfl, hs⟩ := exists_of_mem_beforeClosings (List.mem_reverse.1 (List.mem_filter.1 hc).1)
  rw [hs]
  simp

theorem fragmentsFrom (h : ∀ c, c.length + 2 < length → A (check c) (check' c)) (slashes : Bool)
    (fuel pos : Nat) (literal : Bytes) (start : Nat) (hs : s.length ≤ length) :
    A (fragmentsFrom check slashes fuel pos literal start s)
      (fragmentsFrom check' slashes fuel pos literal start s) := by
  induction fuel generalizing pos literal start s with
  | zero =>
    unfold Expression.fragmentsFrom
    exact hA.pure _
  | succ fuel ih =>
    rcases s with _ | ⟨c, _ | ⟨d, s⟩⟩
    · exact hA.pure _
    · exact ih _ _ _ (Nat.zero_le _)
    · simp only [List.length_cons] at hs
      have hplain : ∀ pos literal start, A (Expression.fragmentsFrom check slashes fuel pos literal start (d :: s))
          (Expression.fragmentsFrom check' slashes fuel pos literal start (d :: s)) :=
        fun pos literal start => ih pos literal start (by rw [List.length_cons]; omega)
      unfold Expression.fragmentsFrom
      dsimp only
      split
      · exact ih _ _ _ (by omega)
      split
      · exact hplain _ _ _
      split
      · exact ih _ _ _ (by omega)
      split
      · refine hA.bind (hA.bracedSource? fun c hc => h c (by omega)) fun found _ => ?_
        cases found with
        | none => exact hplain _ _ _
        | some source => exact hA.bind (ih _ _ _ (by rw [List.length_drop]; omega)) fun _ _ => hA.pure _
      · cases dottedName? (d :: s) with
        | none => exact hplain _ _ _
        | some name =>
          refine hA.bind (ih _ _ _ ?_) fun _ _ => hA.pure _
          rw [List.length_drop, List.length_cons]
          omega

theorem fragments (h : ∀ c, c.length + 2 < text.length → A (check c) (check' c)) (slashes : Bool) :
    A (fragments check slashes text) (fragments check' slashes text) :=
  hA.fragmentsFrom h slashes _ 0 [] 0 (Nat.le_refl _)

theorem mapM [LawfulMonad m] {α β : Type} {f : β → m α} {g : β → Except Failure α} {bs : List β}
    (h : ∀ b ∈ bs, A (f b) (g b)) : A (bs.mapM f) (bs.mapM g) := by
  induction bs with
  | nil =>
    rw [List.mapM_nil, List.mapM_nil]
    exact hA.pure _
  | cons b bs ih =>
    rw [List.mapM_cons, List.mapM_cons]
    refine hA.bind (h b List.mem_cons_self) fun _ _ => ?_
    exact hA.bind (ih fun b hb => h b (List.mem_cons_of_mem _ hb)) fun _ _ => hA.pure _

end Fragments

end Answering

theorem Fragment.length_value_lt {check : Bytes → Except Failure Unit} {slashes : Bool}
    {fs : List Fragment} (hfs : fragments check slashes text = .ok fs) {f : Fragment} (hf : f ∈ fs)
    (hexpression : f.isExpression = true) : f.value.length < text.length := by
  cases (covering_fragments hfs).expression f hf hexpression with
  | braced rest hdrop _ _ _ =>
    have hlength := congrArg List.length hdrop
    simp only [List.length_drop, List.length_cons, List.length_append] at hlength
    omega
  | short s name hdrop hname _ hvalue =>
    have hlength := congrArg List.length hdrop
    have hprefix := (prefix_of_dottedName? hname).1.length_le
    have hname : f.value.length = name.length := by
      rw [hvalue]
      split
      · exact List.length_map _
      · rfl
    simp only [List.length_drop, List.length_cons] at hlength
    omega

/-! ### Enough fuel -/

/-- Whether an expression of the type is made from the expression that its whole source compiles to. -/
def Method.wraps : Method → Bool
  | .negation | .presence | .markup => true
  | _ => false

namespace Registry

variable {p name s : Bytes} {fuel : Nat}

theorem typeName?_append {rest : Bytes} (h : typeName? p = some (name, rest)) (more : Bytes) :
    typeName? (p ++ more) = some (name, rest ++ more) := by
  unfold typeName? at h ⊢
  dsimp only at h ⊢
  generalize hs : p.dropWhile Byte.isBlank = s at h
  rcases s with _ | ⟨b, s⟩
  · cases h
  · have hdrop : (p ++ more).dropWhile Byte.isBlank = (b :: s) ++ more := by
      rw [List.dropWhile_append, hs]
      rfl
    rw [hdrop]
    split at h
    · next hletter =>
      split at h
      · next c after hafter =>
        -- the name ends inside the beginning, at the colon
        have hends : ((b :: s).takeWhile isTypeByte).length ≠ (b :: s).length := by
          have happend := congrArg List.length (List.takeWhile_append_dropWhile (p := isTypeByte) (l := b :: s))
          rw [List.length_append, hafter, List.length_cons] at happend
          omega
        have hrest : ((b :: s) ++ more).dropWhile isTypeByte = c :: (after ++ more) := by
          rw [List.dropWhile_append, hafter]
          rfl
        rw [if_pos (by exact hletter), hrest, List.takeWhile_append, if_neg hends]
        split at h
        · next hcolon =>
          cases h
          exact if_pos hcolon
        · cases h
      · cases h
    · cases h

/-- A source that is compiled by compiling it again: it names no type, and its type wraps another expression. -/
def Circular (r : Registry) (s : Bytes) : Prop :=
  (r.splitType s).2.2 = false ∧ ∃ t, r.types.get? r.defaultType = some t ∧ t.method.wraps = true

/-- The fuel is enough for a source: with more, the same comes out. -/
def Enough (r : Registry) (fuel : Nat) (s : Bytes) : Prop := 3 * s.length + 3 ≤ fuel ∨ r.Circular s

/-- The fuel is enough for a source of the named type. -/
def EnoughAs (r : Registry) (fuel : Nat) (name s : Bytes) : Prop :=
  3 * s.length + 2 ≤ fuel ∧ (name = r.defaultType ∧ (r.splitType s).2.2 = false ∨ 3 * s.length + 5 ≤ fuel)

/-- The fuel is enough for a source of the type, taken as a whole. -/
def EnoughWith (r : Registry) (fuel : Nat) (t : ExpressionType) (s : Bytes) : Prop :=
  3 * s.length < fuel ∧ (t.method.wraps = true → r.Enough (fuel - 1) s)

variable {r : Registry}

theorem splitType_cases (r : Registry) (s : Bytes) :
    r.splitType s = (r.defaultType, s, false) ∨
      (r.splitType s).2.2 = true ∧ (r.splitType s).2.1.length < s.length := by
  unfold splitType
  split
  · next name rest hname =>
    split
    · obtain ⟨blanks, rfl⟩ := typeName?_eq_some hname
      refine .inr ⟨rfl, ?_⟩
      simp only [List.length_append, List.length_cons]
      omega
    · exact .inl rfl
  · exact .inl rfl

theorem splitType_unnamed_of_isPrefix (h : (r.splitType s).2.2 = false) (hp : p <+: s) :
    (r.splitType p).2.2 = false := by
  obtain ⟨more, rfl⟩ := hp
  unfold splitType
  split
  · next name rest hname =>
    split
    · next hknown =>
      rw [splitType, typeName?_append hname more] at h
      dsimp only at h
      rw [if_pos hknown] at h
      cases h
    · rfl
  · rfl

theorem Circular.of_isPrefix (h : r.Circular s) (hp : p <+: s) : r.Circular p :=
  ⟨splitType_unnamed_of_isPrefix h.1 hp, h.2⟩

theorem Enough.enoughAs (h : 3 * s.length + 3 ≤ fuel + 1) :
    r.EnoughAs fuel (r.splitType s).1 (r.splitType s).2.1 := by
  rcases r.splitType_cases s with hunnamed | ⟨-, hshorter⟩
  · rw [hunnamed]
    change r.EnoughAs fuel r.defaultType s
    exact ⟨by omega, .inl ⟨rfl, congrArg (fun split => split.2.2) hunnamed⟩⟩
  · exact ⟨by omega, .inr (by omega)⟩

theorem EnoughAs.of_lt (h : r.EnoughAs (fuel + 1) name s) (hp : p.length < s.length) (t : ExpressionType) :
    r.EnoughWith fuel t p := by
  have hfuel := h.1
  exact ⟨by omega, fun _ => .inl (by omega)⟩

theorem EnoughAs.of_isPrefix (h : r.EnoughAs (fuel + 1) name s) (ht : r.types.get? name = some t)
    (hp : p <+: s) : r.EnoughWith fuel t p := by
  obtain ⟨hfuel, henough⟩ := h
  have hlength := hp.length_le
  refine ⟨by omega, fun hwraps => ?_⟩
  rcases henough with ⟨rfl, hunnamed⟩ | hmore
  · exact .inr ⟨splitType_unnamed_of_isPrefix hunnamed hp, t, ht, hwraps⟩
  · exact .inl (by omega)

end Registry

theorem compileFewest_error {α : Type} (f : Failure) (taken : Bytes) (segs : List Bytes) :
    compileFewest (fun _ => (.error f : Except Failure α)) taken segs = .error f := by
  induction segs generalizing taken with
  | nil => rfl
  | cons seg segs ih => exact ih _

section

variable {m : Type → Type} [Monad m] [MonadExceptOf Failure m] {A : {α : Type} → m α → Except Failure α → Prop}
  {r : Registry} {memo : Bytes → m Evaluator → m Evaluator}

namespace Answering

variable (hA : Answering m A)
  (hmemo : ∀ s act fuel, r.Enough fuel s → A act (compileSource r (fun _ e => e) fuel s) →
    A (memo s act) (compileSource r (fun _ e => e) fuel s))
include hA hmemo

theorem tooDeep_of_circular (fuel : Nat) :
    (∀ s, r.Circular s → A (compileSource r memo fuel s) (.error tooDeep)) ∧
      (∀ s, r.Circular s → A (compileAs r memo fuel r.defaultType s) (.error tooDeep)) ∧
        ∀ t s, r.Circular s → t.method.wraps = true → A (compileWith r memo fuel t s) (.error tooDeep) := by
  induction fuel with
  | zero => exact ⟨fun _ _ => hA.throw _, fun _ _ => hA.throw _, fun _ _ _ _ => hA.throw _⟩
  | succ fuel ih =>
    obtain ⟨hsource, htyped, hwhole⟩ := ih
    refine ⟨fun s hs => hmemo s _ 0 (.inr hs) ?_, fun s hs => ?_, fun t s hs ht => ?_⟩
    · rcases r.splitType_cases s with hunnamed | ⟨hnamed, -⟩
      · rw [hunnamed]
        exact htyped s hs
      · rw [hs.1] at hnamed
        cases hnamed
    · obtain ⟨t, ht, hwraps⟩ := hs.2
      unfold compileAs
      rw [ht]
      dsimp only
      split
      · cases hsegs : splitPipes s with
        | nil => exact absurd hsegs (segmentsFrom_ne_nil none 0 s)
        | cons seg segs =>
          have hfewest : A (Expression.compileFewest (compileWith r memo fuel t) seg segs) (.error tooDeep) := by
            rw [← compileFewest_error tooDeep seg segs]
            refine hA.compileFewest fun n => hwhole t _ (hs.of_isPrefix ?_) hwraps
            rw [← joinPipes_splitPipes s, hsegs]
            exact joinPipes_take_isPrefix seg segs n
          have hall : A (Expression.compileAlternatives r (compileWith r memo fuel) ((seg :: segs).length + 1)
              (some t) (seg :: segs)) (.error tooDeep) :=
            hA.bind (g := fun _ => .error tooDeep) hfewest fun _ h => by cases h
          exact hA.bind (g := fun _ => .error tooDeep) hall fun _ h => by cases h
      · exact hwhole t s hs hwraps
    · have hinner : ∀ f : Evaluator → Evaluator, A (do return f (← compileSource r memo fuel s)) (.error tooDeep) :=
        fun f => hA.bind (g := fun _ => .error tooDeep) (hsource s hs) fun _ h => by cases h
      unfold compileWith
      cases hmethod : t.method with
      | negation => exact hinner .negated
      | presence => exact hinner .present
      | markup => exact hinner .asMarkup
      | term | path | text | importing | load _ | host _ =>
        rw [hmethod] at ht
        cases ht

end Answering

theorem compileSource_of_circular {s : Bytes} (h : r.Circular s) (fuel : Nat) :
    compileSource r (fun _ e => e) fuel s = (.error tooDeep : Except Failure Evaluator) :=
  (answering_except.tooDeep_of_circular (fun _ _ _ _ hact => hact) fuel).1 s h

/-- With enough fuel, compiling gives in each of its forms what comes out without memory and with other enough fuel. -/
structure Agrees (A : {α : Type} → m α → Except Failure α → Prop) (r : Registry)
    (memo : Bytes → m Evaluator → m Evaluator) (fuel fuel' : Nat) : Prop where
  source : ∀ s, r.Enough fuel s → r.Enough fuel' s →
    A (compileSource r memo fuel s) (compileSource r (fun _ e => e) fuel' s)
  typed : ∀ name s, r.EnoughAs fuel name s → r.EnoughAs fuel' name s →
    A (compileAs r memo fuel name s) (compileAs r (fun _ e => e) fuel' name s)
  whole : ∀ t s, r.EnoughWith fuel t s → r.EnoughWith fuel' t s →
    A (compileWith r memo fuel t s) (compileWith r (fun _ e => e) fuel' t s)

namespace Answering

variable [LawfulMonad m] (hA : Answering m A)
  (hmemo : ∀ s act fuel, r.Enough fuel s → A act (compileSource r (fun _ e => e) fuel s) →
    A (memo s act) (compileSource r (fun _ e => e) fuel s))
include hA hmemo

theorem agrees_succ {fuel fuel' : Nat} (h : Agrees A r memo fuel fuel') : Agrees A r memo (fuel + 1) (fuel' + 1) where
  source s hs hs' := by
    by_cases hcircular : r.Circular s
    · rw [compileSource_of_circular hcircular]
      exact (hA.tooDeep_of_circular hmemo _).1 s hcircular
    · exact hmemo s _ (fuel' + 1) hs' (h.typed _ _ (Registry.Enough.enoughAs (hs.resolve_right hcircular))
        (Registry.Enough.enoughAs (hs'.resolve_right hcircular)))
  typed name s hs hs' := by
    unfold compileAs
    cases ht : r.types.get? name with
    | none => exact hA.throw _
    | some t =>
      dsimp only
      split
      · refine hA.bind (hA.compileAlternatives_splitPipes _ (fun p hp => ?_) fun t p hp => ?_) fun _ _ => hA.pure _
        · exact h.whole t p (hs.of_isPrefix ht hp) (hs'.of_isPrefix ht hp)
        · exact h.whole t p (hs.of_lt hp t) (hs'.of_lt hp t)
      · exact h.whole t s (hs.of_isPrefix ht List.prefix_rfl) (hs'.of_isPrefix ht List.prefix_rfl)
  whole t s hs hs' := by
    have hinner : t.method.wraps = true → ∀ f : Evaluator → Evaluator,
        A (do return f (← compileSource r memo fuel s)) (do return f (← compileSource r (fun _ e => e) fuel' s)) :=
      fun hwraps f => hA.bind (h.source s (hs.2 hwraps) (hs'.2 hwraps)) fun _ _ => hA.pure _
    have hshorter : ∀ p : Bytes, p.length < s.length →
        A (compileSource r memo fuel p) (compileSource r (fun _ e => e) fuel' p) := by
      intro p hp
      have hfuel := hs.1
      have hfuel' := hs'.1
      exact h.source p (.inl (by omega)) (.inl (by omega))
    unfold compileWith
    cases hmethod : t.method with
    | term => exact hA.ofExcept _
    | path => exact hA.ofExcept _
    | text =>
      dsimp only
      refine hA.bind (hA.fragments (fun p hp => ?_) _) fun fs hfs => ?_
      · exact hA.bind (hshorter p (by omega)) fun _ _ => hA.pure _
      · refine hA.bind (hA.mapM fun f hf => ?_) fun _ _ => hA.pure _
        split
        · next hexpression => exact hshorter f.value (Fragment.length_value_lt hfs hf hexpression)
        · exact hA.pure _
    | negation => exact hinner (by rw [hmethod]; rfl) .negated
    | presence => exact hinner (by rw [hmethod]; rfl) .present
    | markup => exact hinner (by rw [hmethod]; rfl) .asMarkup
    | importing =>
      dsimp only
      split
      · exact hA.pure _
      · exact hA.throw _
    | load template =>
      dsimp only
      split
      · exact hA.throw _
      · exact hA.pure _
    | host compile => exact hA.ofExcept _

omit [LawfulMonad m] in
theorem agrees_without_fuel {fuel fuel' : Nat} (h : fuel = 0 ∨ fuel' = 0) : Agrees A r memo fuel fuel' where
  source s hs hs' := by
    have hcircular : r.Circular s := by
      rcases hs with hs | hs
      · exact hs'.resolve_left (by omega)
      · exact hs
    rw [compileSource_of_circular hcircular]
    exact (hA.tooDeep_of_circular hmemo _).1 s hcircular
  typed _ _ hs hs' := by
    have hfuel := hs.1
    have hfuel' := hs'.1
    omega
  whole _ _ hs hs' := by
    have hfuel := hs.1
    have hfuel' := hs'.1
    omega

theorem agrees (fuel fuel' : Nat) : Agrees A r memo fuel fuel' := by
  induction fuel generalizing fuel' with
  | zero => exact hA.agrees_without_fuel hmemo (.inl rfl)
  | succ fuel ih =>
    cases fuel' with
    | zero => exact hA.agrees_without_fuel hmemo (.inr rfl)
    | succ fuel' => exact hA.agrees_succ hmemo (ih fuel')

end Answering

end

namespace Registry

variable {r : Registry}
variable {s : Bytes}

theorem enough_fuelFor (r : Registry) (s : Bytes) : r.Enough (fuelFor s) s := .inl (by rw [fuelFor]; omega)

theorem enoughAs_fuelFor (r : Registry) (name s : Bytes) : r.EnoughAs (fuelFor s) name s := by
  rw [EnoughAs, fuelFor]
  omega

theorem Enough.compileSource_eq {fuel : Nat} (h : r.Enough fuel s) :
    compileSource r (fun _ e => e) fuel s = r.compile s :=
  (answering_except.agrees (fun _ _ _ _ hact => hact) fuel (fuelFor s)).source s h (r.enough_fuelFor s)

/-- What is remembered of a source is what the source compiles to. -/
def Justifies (r : Registry) (cache : Assoc Evaluator) : Prop := ∀ s e, cache.get? s = some e → r.compile s = .ok e

/-- From a memory that can be trusted, the computation gives the answer and leaves such a memory. -/
def Answers (r : Registry) {α : Type} (act : Compiling α) (x : Except Failure α) : Prop :=
  ∀ cache, r.Justifies cache → ∃ cache', act.run.run cache = (x, cache') ∧ r.Justifies cache'

theorem answering (r : Registry) : Answering Compiling r.Answers where
  pure _ cache hcache := ⟨cache, rfl, hcache⟩
  throw _ cache hcache := ⟨cache, rfl, hcache⟩
  bind {_ _ x y f g} hx hf cache hcache := by
    obtain ⟨c, hrun, hc⟩ := hx cache hcache
    rw [Engine.run_bind, hrun]
    cases y with
    | error e => exact ⟨c, rfl, hc⟩
    | ok b => exact hf b rfl c hc
  tryCatch {_ x y f g} hx hf cache hcache := by
    obtain ⟨c, hrun, hc⟩ := hx cache hcache
    rw [Engine.run_tryCatch, hrun]
    cases y with
    | error e => exact hf e c hc
    | ok a => exact ⟨c, rfl, hc⟩

theorem Justifies.insert {cache : Assoc Evaluator} (h : r.Justifies cache) {e : Evaluator} (he : r.compile s = .ok e) :
    r.Justifies (cache.insert s e) := by
  intro s' e' hget
  rw [Assoc.get?_insert] at hget
  split at hget
  · next hs =>
    cases hget
    rw [hs, he]
  · exact h s' e' hget

theorem Answers.remember {act : Compiling Evaluator} (h : r.Answers act (r.compile s)) :
    r.Answers (Engine.remember s act) (r.compile s) := by
  intro cache hcache
  rw [Engine.run_remember]
  cases hfound : cache.get? s with
  | some e => exact ⟨cache, by rw [hcache s e hfound], hcache⟩
  | none =>
    obtain ⟨c, hrun, hc⟩ := h cache hcache
    rw [hrun]
    cases hcompile : r.compile s with
    | error f => exact ⟨c, rfl, hc⟩
    | ok e => exact ⟨c.insert s e, rfl, hc.insert hcompile⟩

theorem agrees_remember (r : Registry) (fuel fuel' : Nat) : Agrees r.Answers r Engine.remember fuel fuel' := by
  refine r.answering.agrees (fun s act fuel hfuel hact => ?_) fuel fuel'
  rw [hfuel.compileSource_eq] at hact ⊢
  exact hact.remember

theorem answers_compileSource (r : Registry) (s : Bytes) :
    r.Answers (compileSource r Engine.remember (fuelFor s) s) (r.compile s) :=
  (r.agrees_remember _ _).source s (r.enough_fuelFor s) (r.enough_fuelFor s)

theorem answers_compileAs (r : Registry) (name s : Bytes) :
    r.Answers (compileAs r Engine.remember (fuelFor s) name s) (compileAs r (fun _ e => e) (fuelFor s) name s) :=
  (r.agrees_remember _ _).typed name s (r.enoughAs_fuelFor name s) (r.enoughAs_fuelFor name s)

theorem answers_fragments (r : Registry) (text : Bytes) :
    r.Answers (Expression.fragments (fun s => do let _ ← compileSource r Engine.remember (fuelFor s) s)
      (r.defaultType == utf8 "path") text) (r.fragments text) :=
  r.answering.fragments (fun s _ => r.answering.bind (r.answers_compileSource s) fun _ _ => r.answering.pure _) _

end Registry

/-- The engine gives the answer, and only its memory changes, which can be trusted again. -/
def Engine.Answers (e : Engine) {α : Type} (p : Except Failure α × Engine) (x : Except Failure α) : Prop :=
  ∃ cache, p = (x, { e with cache }) ∧ e.registry.Justifies cache

theorem Engine.answers_run {α : Type} {e : Engine} (h : e.registry.Justifies e.cache) {act : Compiling α}
    {x : Except Failure α} (hact : e.registry.Answers act x) : e.Answers (e.run act) x := by
  obtain ⟨cache, hrun, hcache⟩ := hact e.cache h
  exact ⟨cache, by rw [Engine.run_eq, hrun], hcache⟩

/-! ### Sessions -/

/-- A type that a client registers, which compiles by a method or a code of the client. -/
structure Registration (κ : Type) where
  name : Bytes
  method : Method ⊕ κ
  piped : Bool

/-- A client of an engine. What it supplies for a code may depend on all that is registered. -/
structure Client (κ : Type) where
  defaultType : Bytes
  imports : Assoc Value
  terms : Bytes → Option Evaluator
  compile : κ → List (Registration κ) → Bytes → Except Failure Evaluator

inductive Call (κ : Type) where
  | register (x : Registration κ)
  | compile (source : Bytes)
  | compileAs (type source : Bytes)
  | compileToken (t : Markup.Token)
  | check (source : Bytes)
  | fragments (text : Bytes)

def Call.registration? {κ : Type} : Call κ → Option (Registration κ)
  | .register x => some x
  | _ => none

inductive Reply where
  | done
  | expression (answer : Except Failure Evaluator)
  | verdict (answer : Except Failure Unit)
  | fragments (answer : Except Failure (List Fragment))

/-- An engine in use, and what was registered with it, oldest first. -/
structure Session (κ : Type) where
  registered : List (Registration κ)
  engine : Engine

/-- The reply that follows from what is registered alone. -/
def Registry.reply {κ : Type} (r : Registry) : Call κ → Reply
  | .register _ => .done
  | .compile source => .expression (r.compile source)
  | .compileAs type source => .expression (compileAs r (fun _ e => e) (fuelFor source) type source)
  | .compileToken t =>
    .expression ((r.compile t.value).mapError fun f => t.fault .expression (utf8 "Invalid expression") (some f))
  | .check source => .verdict ((r.compile source).map fun _ => ())
  | .fragments text => .fragments (r.fragments text)

namespace Client

variable {κ : Type} (c : Client κ)

/-- What a registration stands for among all of them. -/
def type (all : List (Registration κ)) (x : Registration κ) : ExpressionType :=
  ⟨x.method.elim id fun code => .host (c.compile code all), x.piped⟩

/-- What is registered, with each type as it is among all of them. -/
def registry (all : List (Registration κ)) : Registry :=
  all.foldl (fun r x => r.register x.name (c.type all x)) { Registry.initial c.defaultType c.imports with terms := c.terms }

def start : Session κ := ⟨[], { registry := c.registry [] }⟩

/-- A further registration. From now on, the client may compile for earlier ones in another way. -/
def register (s : Session κ) (x : Registration κ) : Session κ :=
  let all := s.registered ++ [x]
  ⟨all, { s.engine.register x.name (c.type all x) with registry := c.registry all }⟩

def step (s : Session κ) : Call κ → Reply × Session κ
  | .register x => (.done, c.register s x)
  | .compile source => ((s.engine.compile source).map .expression fun e => { s with engine := e })
  | .compileAs type source => ((s.engine.compileAs type source).map .expression fun e => { s with engine := e })
  | .compileToken t => ((s.engine.compileToken t).map .expression fun e => { s with engine := e })
  | .check source =>
    ((s.engine.compile source).map (fun answer => .verdict (answer.map fun _ => ())) fun e => { s with engine := e })
  | .fragments text => ((s.engine.fragments text).map .fragments fun e => { s with engine := e })

def run (calls : List (Call κ)) : Session κ := calls.foldl (fun s call => (c.step s call).2) c.start

/-- The engine has what was registered, and its memory can be trusted. -/
structure Sound (s : Session κ) : Prop where
  registry : s.engine.registry = c.registry s.registered
  memory : s.engine.registry.Justifies s.engine.cache

variable {c}

theorem sound_start : c.Sound c.start := ⟨rfl, fun _ _ h => by cases h⟩

namespace Sound

variable {s : Session κ} (h : c.Sound s)
include h

theorem step_of_answers {α : Type} {p : Except Failure α × Engine} {x : Except Failure α} (hp : s.engine.Answers p x)
    (f : Except Failure α → Reply) :
    (p.map f fun e => { s with engine := e }).1 = f x ∧ c.Sound (p.map f fun e => { s with engine := e }).2 ∧
      (p.map f fun e => { s with engine := e }).2.registered = s.registered ++ [] := by
  obtain ⟨cache, rfl, hcache⟩ := hp
  exact ⟨rfl, ⟨h.registry, hcache⟩, (List.append_nil _).symm⟩

theorem answers_compile (source : Bytes) :
    s.engine.Answers (s.engine.compile source) (s.engine.registry.compile source) :=
  Engine.answers_run h.memory (s.engine.registry.answers_compileSource source)

theorem answers_compileToken (t : Markup.Token) :
    s.engine.Answers (s.engine.compileToken t) ((s.engine.registry.compile t.value).mapError fun f =>
      t.fault .expression (utf8 "Invalid expression") (some f)) := by
  obtain ⟨cache, hrun, hcache⟩ := h.answers_compile t.value
  refine ⟨cache, ?_, hcache⟩
  rw [Engine.compileToken, hrun]
  cases s.engine.registry.compile t.value <;> rfl

theorem step (call : Call κ) :
    (c.step s call).1 = (c.registry s.registered).reply call ∧ c.Sound (c.step s call).2 ∧
      (c.step s call).2.registered = s.registered ++ call.registration?.toList := by
  rw [← h.registry]
  cases call with
  | register x => exact ⟨rfl, ⟨rfl, fun _ _ hget => by cases hget⟩, rfl⟩
  | compile source => exact h.step_of_answers (h.answers_compile source) _
  | compileAs type source =>
    exact h.step_of_answers (Engine.answers_run h.memory (s.engine.registry.answers_compileAs type source)) _
  | compileToken t => exact h.step_of_answers (h.answers_compileToken t) _
  | check source => exact h.step_of_answers (h.answers_compile source) _
  | fragments text =>
    exact h.step_of_answers (Engine.answers_run h.memory (s.engine.registry.answers_fragments text)) _

end Sound

theorem sound_run (calls : List (Call κ)) :
    c.Sound (c.run calls) ∧ (c.run calls).registered = calls.filterMap Call.registration? := by
  induction calls using List.reverseRecOn with
  | nil => exact ⟨sound_start, rfl⟩
  | append_singleton calls call ih =>
    obtain ⟨-, hsound, hregistered⟩ := ih.1.step call
    have hrun : c.run (calls ++ [call]) = (c.step (c.run calls) call).2 := by
      rw [run, List.foldl_append]
      rfl
    have hlast : [call].filterMap Call.registration? = call.registration?.toList := by cases call <;> rfl
    rw [hrun, hregistered, ih.2, List.filterMap_append, hlast]
    exact ⟨hsound, rfl⟩

/-- Every call is answered as on a new engine with the types registered before the call, on which nothing was compiled.
-/
theorem reply_independent_of_memory (c : Client κ) (calls : List (Call κ)) (call : Call κ) :
    (c.step (c.run calls) call).1 =
      (c.step (c.run ((calls.filterMap Call.registration?).map Call.register)) call).1 := by
  obtain ⟨hused, hregistered⟩ := sound_run (c := c) calls
  obtain ⟨hnew, hagain⟩ := sound_run (c := c) ((calls.filterMap Call.registration?).map Call.register)
  have hsame : ∀ xs : List (Registration κ), (xs.map Call.register).filterMap Call.registration? = xs := by
    intro xs
    rw [List.filterMap_map]
    exact List.filterMap_some
  rw [(hused.step call).1, (hnew.step call).1, hregistered, hagain, hsame]

-- a remembered text is compiled anew when the type of an expression inside it is registered again
example :
    let c : Client Unit := ⟨utf8 "path", [], Term.evaluator?, fun _ all _ => .ok (.constant (.bool (all.length == 1)))⟩
    let x : Call Unit := .register ⟨utf8 "x", .inr (), false⟩
    let text : Call Unit := .compile (utf8 "string:$\x7bx:1\x7d")
    (c.step (c.run [x, text]) text).1 = .expression (.ok (.concat [.constant (.bool true)])) ∧
      (c.step (c.run [x, text, x]) text).1 = .expression (.ok (.concat [.constant (.bool false)])) := by
  exact ⟨rfl, rfl⟩

end Client

end PageTemplate.Expression
