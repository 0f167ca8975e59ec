import PageTemplate.Proofs.Evaluation
import PageTemplate.Proofs.Expression.Segments

/-!
The alternatives of a source. The segments between its pipes are handed out to them in order, with none left out. An
alternative takes the fewest segments that compile, or all that are left if it names a type without alternatives. The
value is that of the first alternative that has one.
-/

namespace PageTemplate.Expression

open Engine (Compiling)

variable {c c' : Assoc Evaluator} {segs : List Bytes} {es : List Evaluator}
variable {fuel : Nat} {t : ExpressionType}

/-- The computations fail in turn, with failures of some kind, and pass the state on. -/
inductive FailInTurn {σ ι α : Type} (run : ι → σ → Except Failure α × σ) (Kind : Failure → Prop) :
    σ → List ι → σ → Prop where
  | nil (w : σ) : FailInTurn run Kind w [] w
  | cons {i : ι} {is : List ι} {w w' w'' : σ} {f : Failure} : run i w = (.error f, w') → Kind f →
    FailInTurn run Kind w' is w'' → FailInTurn run Kind w (i :: is) w''

/-- An alternative of a source: the name of its type as written, its first segment, the segments joined to it, its type,
and what it compiled to. -/
structure Alternative where
  lead : Bytes
  first : Bytes
  more : List Bytes
  type : ExpressionType
  evaluator : Evaluator

namespace Alternative

def segments (a : Alternative) : List Bytes := (a.lead ++ a.first) :: a.more

def source (a : Alternative) : Bytes := joinPipes a.segments

/-- What is compiled for the alternative. -/
def body (a : Alternative) : Bytes := joinPipes (a.first :: a.more)

/-- What would be compiled for the alternative if it took fewer segments, from one segment on. -/
def shorter (a : Alternative) : List Bytes :=
  (List.range a.more.length).map fun n => joinPipes (a.first :: a.more.take n)

/-- The alternative takes the fewest segments that compile, taking the memory from `c` to `c'`. -/
def TakesFewest (compile : ExpressionType → Bytes → Compiling Evaluator) (a : Alternative) (c c' : Assoc Evaluator) :
    Prop :=
  ∃ c₁, FailInTurn (fun s c => (compile a.type s).run.run c) (fun _ => True) c a.shorter c₁ ∧
    (compile a.type a.body).run.run c₁ = (.ok a.evaluator, c')

/-- The type of the alternative is the one that its first segment names, or else the default type. -/
def Typed (r : Registry) (a : Alternative) (named : Bool) : Prop :=
  ∃ name, r.splitType (a.lead ++ a.first) = (name, a.first, named) ∧ r.types.get? name = some a.type

end Alternative

/-- How alternatives are compiled one after the other. The type of the first one may be given. -/
inductive CompiledInTurn (r : Registry) (compile : ExpressionType → Bytes → Compiling Evaluator) :
    Option ExpressionType → Assoc Evaluator → List Alternative → Assoc Evaluator → Prop where
  | nil (c : Assoc Evaluator) : CompiledInTurn r compile none c [] c
  | given {a : Alternative} {as : List Alternative} {c c' c'' : Assoc Evaluator} : a.lead = [] →
    a.TakesFewest compile c c' → CompiledInTurn r compile none c' as c'' →
    CompiledInTurn r compile (some a.type) c (a :: as) c''
  | fewest {a : Alternative} {as : List Alternative} {c c' c'' : Assoc Evaluator} {named : Bool} : a.Typed r named →
    (named = true → a.type.piped = true) → a.TakesFewest compile c c' → CompiledInTurn r compile none c' as c'' →
    CompiledInTurn r compile none c (a :: as) c''
  | whole {a : Alternative} {c c' : Assoc Evaluator} : a.Typed r true → a.type.piped = false →
    (compile a.type a.body).run.run c = (.ok a.evaluator, c') → CompiledInTurn r compile none c [a] c'

theorem joinPipes_flatMap_segments (as : List Alternative) :
    joinPipes (as.flatMap Alternative.segments) = joinPipes (as.map Alternative.source) := by
  induction as with
  | nil => rfl
  | cons a as ih =>
    rw [List.flatMap_cons, List.map_cons]
    cases as with
    | nil => simp [Alternative.source, joinPipes, Bytes.join]
    | cons a' as =>
      rw [joinPipes_append (by simp [Alternative.segments]) (by simp [Alternative.segments]), ih,
        joinPipes_cons a.source (by simp)]
      rfl

/-! ### Compiling them -/

theorem Engine.run_bind_eq_ok {α β : Type} {x : Compiling β} {f : β → Compiling α} {a : α}
    (h : (x >>= f).run.run c = (.ok a, c')) :
    ∃ b c₁, x.run.run c = (.ok b, c₁) ∧ (f b).run.run c₁ = (.ok a, c') := by
  rw [Engine.run_bind] at h
  rcases hx : x.run.run c with ⟨answer, c₁⟩
  rw [hx] at h
  cases answer with
  | ok b => exact ⟨b, c₁, rfl, h⟩
  | error f => cases h

theorem exists_of_run_compileFewest {α : Type} {compile : Bytes → Compiling α} {taken : Bytes} {rest : List Bytes}
    {a : α} (h : (compileFewest compile taken segs).run.run c = (.ok (a, rest), c')) :
    ∃ more c₁, segs = more ++ rest ∧
      FailInTurn (fun s c => (compile s).run.run c) (fun _ => True) c
        ((List.range more.length).map fun n => joinPipes (taken :: more.take n)) c₁ ∧
      (compile (joinPipes (taken :: more))).run.run c₁ = (.ok a, c') := by
  -- With no more segments the first attempt succeeds.
  have hfirst : ∀ {taken : Bytes} {segs : List Bytes} {c : Assoc Evaluator},
      (do return (← compile taken, segs) : Compiling (α × List Bytes)).run.run c = (.ok (a, rest), c') →
        segs = rest ∧ (compile taken).run.run c = (.ok a, c') := by
    intro taken segs c h
    obtain ⟨b, c₁, hb, hpair⟩ := Engine.run_bind_eq_ok h
    cases hpair
    exact ⟨rfl, hb⟩
  induction segs generalizing taken c with
  | nil =>
    obtain ⟨rfl, hcompile⟩ := hfirst h
    exact ⟨[], c, rfl, .nil c, hcompile⟩
  | cons seg segs ih =>
    rw [compileFewest, Engine.run_tryCatch] at h
    rcases htry : (do return (← compile taken, seg :: segs) : Compiling (α × List Bytes)).run.run c with ⟨answer, c₁⟩
    rw [htry] at h
    cases answer with
    | ok p =>
      obtain ⟨rfl, hcompile⟩ := hfirst (htry.trans h)
      exact ⟨[], c, rfl, .nil c, hcompile⟩
    | error f =>
      have hfailed : (compile taken).run.run c = (.error f, c₁) := by
        rw [Engine.run_bind] at htry
        rcases hrun : (compile taken).run.run c with ⟨answer, c₂⟩
        rw [hrun] at htry
        cases answer <;> cases htry
        rfl
      obtain ⟨more, c₂, hsegs, hfail, hcompile⟩ := ih h
      refine ⟨seg :: more, c₂, by rw [hsegs, List.cons_append], ?_, ?_⟩
      · rw [List.length_cons, List.range_succ_eq_map, List.map_cons, List.map_map]
        simp only [joinPipes_merge] at hfail
        exact .cons hfailed trivial hfail
      · rwa [joinPipes_merge] at hcompile

variable {r : Registry} {compile : ExpressionType → Bytes → Compiling Evaluator}

theorem exists_of_run_further (lead : Bytes) {body : Bytes}
    (h : (do
      let (e, rest) ← compileFewest (compile t) body segs
      return e :: (← compileAlternatives r compile fuel none rest) : Compiling (List Evaluator)).run.run c =
        (.ok es, c'))
    (hrest : ∀ {rest : List Bytes} {es : List Evaluator} {c : Assoc Evaluator}, rest.length ≤ segs.length →
      (compileAlternatives r compile fuel none rest).run.run c = (.ok es, c') →
      ∃ as, as.map Alternative.evaluator = es ∧ as.flatMap Alternative.segments = rest ∧
        CompiledInTurn r compile none c as c') :
    ∃ (a : Alternative) (as : List Alternative) (c₁ : Assoc Evaluator), a.lead = lead ∧ a.first = body ∧ a.type = t ∧
      (a :: as).map Alternative.evaluator = es ∧ (a :: as).flatMap Alternative.segments = (lead ++ body) :: segs ∧
      a.TakesFewest compile c c₁ ∧ CompiledInTurn r compile none c₁ as c' := by
  obtain ⟨⟨e, rest⟩, c₁, hfewest, h⟩ := Engine.run_bind_eq_ok h
  obtain ⟨es', c₂, hlater, h⟩ := Engine.run_bind_eq_ok h
  cases h
  obtain ⟨more, c₀, rfl, hfail, hcompile⟩ := exists_of_run_compileFewest hfewest
  obtain ⟨as, rfl, rfl, hcompiled⟩ := hrest (by simp) hlater
  exact ⟨⟨lead, body, more, t, e⟩, as, c₁, rfl, rfl, rfl, rfl, rfl, ⟨c₀, hfail, hcompile⟩, hcompiled⟩

theorem exists_of_run_compileAlternatives (hfuel : segs.length < fuel)
    (h : (compileAlternatives r compile fuel none segs).run.run c = (.ok es, c')) :
    ∃ as, as.map Alternative.evaluator = es ∧ as.flatMap Alternative.segments = segs ∧
      CompiledInTurn r compile none c as c' := by
  induction fuel generalizing segs es c with
  | zero => omega
  | succ fuel ih =>
    cases segs with
    | nil =>
      cases h
      exact ⟨[], rfl, rfl, .nil _⟩
    | cons seg segs =>
      obtain ⟨lead, hlead⟩ := r.exists_splitType seg
      unfold compileAlternatives at h
      dsimp only at h
      rcases hsplit : r.splitType seg with ⟨name, body, named⟩
      rw [hsplit] at h hlead
      dsimp only at h hlead
      subst hlead
      cases htype : r.types.get? name with
      | none =>
        rw [htype] at h
        cases h
      | some t =>
        rw [htype] at h
        dsimp only at h
        split at h
        · next hwhole =>
          obtain ⟨e, c₁, hcompile, h⟩ := Engine.run_bind_eq_ok h
          cases h
          simp only [Bool.and_eq_true, Bool.not_eq_true'] at hwhole
          obtain ⟨rfl, hpiped⟩ := hwhole
          refine ⟨[⟨lead, body, segs, t, e⟩], rfl, by simp [Alternative.segments], ?_⟩
          exact .whole ⟨name, hsplit, htype⟩ hpiped hcompile
        · next hfewest =>
          obtain ⟨a, as, c₁, rfl, rfl, rfl, hes, hsegs, htakes, hlater⟩ :=
            exists_of_run_further lead h fun hlength => ih (by simp only [List.length_cons] at hfuel; omega)
          refine ⟨a :: as, hes, hsegs, .fewest ⟨name, hsplit, htype⟩ ?_ htakes hlater⟩
          simpa using hfewest

theorem exists_of_run_compileAlternatives_some (hsegs : segs ≠ [])
    (h : (compileAlternatives r compile (segs.length + 1) (some t) segs).run.run c = (.ok es, c')) :
    ∃ as, as.map Alternative.evaluator = es ∧ as.flatMap Alternative.segments = segs ∧
      CompiledInTurn r compile (some t) c as c' := by
  obtain ⟨seg, segs, rfl⟩ := List.exists_cons_of_ne_nil hsegs
  obtain ⟨a, as, c₁, hlead, rfl, rfl, hes, hsegs, htakes, hlater⟩ :=
    exists_of_run_further [] h fun hlength => exists_of_run_compileAlternatives (by simp only [List.length_cons]; omega)
  exact ⟨a :: as, hes, hsegs, .given hlead htakes hlater⟩

/-- The alternative that answers for all: those before it let the next be tried, and it does not or is the last. -/
theorem exists_of_evalFirst (vars : Vars) (hes : es ≠ []) (w : World) :
    ∃ tried e rest w', es = tried ++ e :: rest ∧
      FailInTurn (fun (e : Evaluator) w => (e.eval vars).run w) (fun f => f.fallsThrough = true) w tried w' ∧
      (Evaluator.evalFirst vars es).run w = (e.eval vars).run w' ∧
      (rest ≠ [] → ∀ f, ((e.eval vars).run w').1 = .error f → f.fallsThrough = false) := by
  induction es generalizing w with
  | nil => exact absurd rfl hes
  | cons e es ih =>
    cases es with
    | nil => exact ⟨[], e, [], w, rfl, .nil w, by rw [Evaluator.evalFirst], fun h => absurd rfl h⟩
    | cons e' es =>
      have hfallback : Evaluator.evalFirst vars (e :: e' :: es) =
          Evaluator.fallback (e.eval vars) id (Evaluator.evalFirst vars (e' :: es)) := by
        rw [Evaluator.evalFirst]
        simp
      rw [hfallback, Evaluator.run_fallback]
      rcases hrun : (e.eval vars).run w with ⟨answer, w₁⟩
      cases answer with
      | ok v =>
        refine ⟨[], e, e' :: es, w, rfl, .nil w, hrun.symm, fun _ f hf => ?_⟩
        rw [hrun] at hf
        cases hf
      | error f =>
        dsimp only
        split
        · next hfalls =>
          obtain ⟨tried, e₁, rest, w', hsplit, hfail, heval, hlast⟩ := ih (by simp) w₁
          exact ⟨e :: tried, e₁, rest, w', congrArg (e :: ·) hsplit, .cons hrun hfalls hfail, heval, hlast⟩
        · next hfalls =>
          refine ⟨[], e, e' :: es, w, rfl, .nil w, hrun.symm, fun _ g hg => ?_⟩
          rw [hrun] at hg
          cases hg
          simpa using hfalls

theorem eval_ofAlternatives (vars : Vars) (hes : es ≠ []) :
    (ofAlternatives es).eval vars = Evaluator.evalFirst vars es := by
  rcases es with _ | ⟨e, _ | ⟨e', es⟩⟩
  · exact absurd rfl hes
  · rw [ofAlternatives, Evaluator.evalFirst]
  · rw [ofAlternatives, Evaluator.eval]
    simp

/-- A source is cut just at the pipes that separate alternatives. Whatever the types and their ways to compile, the
alternatives take the segments between these pipes in order, so their texts make up the source. Each takes the fewest
segments that compile, unless it names a type without alternatives and takes all that are left. The answer is that of
the first that does not let the next be tried, or of the last. -/
theorem alternatives_cover_source (r : Registry) (compile : ExpressionType → Bytes → Compiling Evaluator)
    (t : ExpressionType) (source : Bytes) :
    joinPipes (splitPipes source) = source ∧
      (∀ p s, CutsAt (splitPipes source) p s ↔ source = p ++ Byte.pipe :: s ∧ Separates (.outside 0) p s) ∧
      ∀ c es c',
        (compileAlternatives r compile ((splitPipes source).length + 1) (some t) (splitPipes source)).run.run c =
          (.ok es, c') →
        (∃ as : List Alternative, as.map Alternative.evaluator = es ∧
          as.flatMap Alternative.segments = splitPipes source ∧ joinPipes (as.map Alternative.source) = source ∧
          CompiledInTurn r compile (some t) c as c') ∧
        ∀ vars w, ∃ tried e rest w', es = tried ++ e :: rest ∧
          FailInTurn (fun (e : Evaluator) w => (e.eval vars).run w) (fun f => f.fallsThrough = true) w tried w' ∧
          ((ofAlternatives es).eval vars).run w = (e.eval vars).run w' ∧
          (rest ≠ [] → ∀ f, ((e.eval vars).run w').1 = .error f → f.fallsThrough = false) := by
  have hsplit : splitPipes source ≠ [] := segmentsFrom_ne_nil none 0 source
  refine ⟨joinPipes_splitPipes source, cutsAt_splitPipes source, fun c es c' h => ?_⟩
  obtain ⟨as, hes, hsegments, hcompiled⟩ := exists_of_run_compileAlternatives_some hsplit h
  have hne : es ≠ [] := by
    rintro rfl
    rw [List.map_eq_nil_iff.1 hes] at hsegments
    exact hsplit hsegments.symm
  refine ⟨⟨as, hes, hsegments, ?_, hcompiled⟩, fun vars w => ?_⟩
  · rw [← joinPipes_flatMap_segments, hsegments, joinPipes_splitPipes]
  · rw [eval_ofAlternatives vars hne]
    exact exists_of_evalFirst vars hne w

/-- A segment that ends in a comment is joined with the next one, and a text takes all that is left. -/
theorem alternatives_cover_source_comment :
    let r := Registry.initial (utf8 "expr") []
    let source := utf8 "a /* | */ + 1 | string:b|c"
    let segs := [utf8 "a /* ", utf8 " */ + 1 ", utf8 " string:b", utf8 "c"]
    splitPipes source = segs ∧
      ∃ es c',
        (compileAlternatives r (compileWith r Engine.remember 20) 5 (some termType) segs).run.run [] = (.ok es, c') ∧
        es.length = 2 ∧ ∃ as : List Alternative, as.map Alternative.evaluator = es ∧
          as.flatMap Alternative.segments = segs ∧ joinPipes (as.map Alternative.source) = source := by
  intro r source segs
  have hsegs : splitPipes source = segs := by decide +kernel
  have hlength : ((compileAlternatives r (compileWith r Engine.remember 20) 5 (some termType) segs).run.run
      []).1.toOption.map List.length = some 2 := by decide +kernel
  rcases hrun : (compileAlternatives r (compileWith r Engine.remember 20) 5 (some termType) segs).run.run [] with
    ⟨answer, c'⟩
  rw [hrun] at hlength
  cases answer with
  | error f => cases hlength
  | ok es =>
    obtain ⟨as, hes, hsegments, hjoined, _⟩ :=
      ((alternatives_cover_source r (compileWith r Engine.remember 20) termType source).2.2 [] es c'
        (by rw [hsegs]; exact hrun)).1
    exact ⟨hsegs, es, c', rfl, Option.some.inj hlength, as, hes, hsegments.trans hsegs, hjoined⟩

end PageTemplate.Expression
