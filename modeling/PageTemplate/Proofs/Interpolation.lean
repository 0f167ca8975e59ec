import PageTemplate.Proofs.Expression.Memory

/-!
The expressions that an engine finds in a text. Between braces it takes the longest stretch that has as many opening as
closing braces and compiles, whatever the expression language; that may go on over the end of another expression.
-/

namespace PageTemplate.Expression

variable {e : Engine}

/-- The engines that come about by registering types and compiling. -/
inductive Engine.Reachable : Engine → Prop where
  | initial (defaultType : Bytes) (imports : Assoc Value) (terms : Bytes → Option Evaluator) :
      Reachable { registry := { Registry.initial defaultType imports with terms } }
  | register {e : Engine} (name : Bytes) (t : ExpressionType) : Reachable e → Reachable (e.register name t)
  | compile {e : Engine} (source : Bytes) : Reachable e → Reachable (e.compile source).2
  | compileAs {e : Engine} (type source : Bytes) : Reachable e → Reachable (e.compileAs type source).2
  | compileToken {e : Engine} (t : Markup.Token) : Reachable e → Reachable (e.compileToken t).2
  | fragments {e : Engine} (text : Bytes) : Reachable e → Reachable (e.fragments text).2

theorem Engine.compileToken_snd (e : Engine) (t : Markup.Token) : (e.compileToken t).2 = (e.compile t.value).2 := by
  unfold Engine.compileToken
  split
  · next h => rw [h]
  · next h => rw [h]

theorem Engine.Answers.justifies {α : Type} {p : Except Failure α × Engine} {x : Except Failure α} (h : e.Answers p x) :
    p.2.registry.Justifies p.2.cache := by
  obtain ⟨cache, rfl, hcache⟩ := h
  exact hcache

theorem Engine.Reachable.justifies (he : e.Reachable) : e.registry.Justifies e.cache := by
  induction he with
  | initial | register =>
    intro source x h
    cases h
  | compile source _ ih => exact (Engine.answers_run ih (Registry.answers_compileSource _ source)).justifies
  | compileAs type source _ ih => exact (Engine.answers_run ih (Registry.answers_compileAs _ type source)).justifies
  | compileToken t _ ih =>
    rw [Engine.compileToken_snd]
    exact (Engine.answers_run ih (Registry.answers_compileSource _ t.value)).justifies
  | fragments text _ ih => exact (Engine.answers_run ih (Registry.answers_fragments _ text)).justifies

theorem append_cons_cases {α : Type} {s t rest after : List α} {a : α} (h : s ++ a :: rest = t ++ a :: after) :
    s = t ∨ (∃ more, t = s ++ a :: more ∧ rest = more ++ a :: after) ∨ ∃ more, s = t ++ a :: more := by
  rcases List.append_eq_append_iff.1 h with ⟨more, rfl, hmore⟩ | ⟨more, rfl, hmore⟩
  · cases more with
    | nil => exact .inl (List.append_nil s).symm
    | cons b more =>
      cases hmore
      exact .inr (.inl ⟨more, rfl, rfl⟩)
  · cases more with
    | nil => exact .inl (List.append_nil t)
    | cons b more =>
      cases hmore
      exact .inr (.inr ⟨more, rfl⟩)

theorem braceless_short {s name : Bytes} (hname : dottedName? s = some name) (slashes : Bool) :
    ∀ b ∈ if slashes then name.map fun b => if b = Byte.period then Byte.slash else b else name,
      b ≠ Byte.leftBrace ∧ b ≠ Byte.rightBrace := by
  have hbyte : ∀ b ∈ name, b ≠ Byte.leftBrace ∧ b ≠ Byte.rightBrace := by
    intro b hb
    refine ⟨?_, ?_⟩
    all_goals
      rintro rfl
      exact absurd (mem_dottedName? hname hb) (by decide)
  cases slashes with
  | false => exact hbyte
  | true =>
    intro b hb
    obtain ⟨c, hc, rfl⟩ := List.mem_map.1 hb
    split
    · decide
    · exact hbyte c hc

/-- Every expression that an engine finds in a text has as many opening as closing braces. One between braces is the
longest stretch of the text that has, ends before a closing brace and compiles. So an expression without braces is taken
by itself, unless a stretch compiles that goes on over its end. -/
theorem Engine.Reachable.braces_of_fragment {e : Engine} (he : e.Reachable) {text : Bytes} {fs : List Fragment}
    (h : (e.fragments text).1 = .ok fs) {f : Fragment} (hf : f ∈ fs) (hexpression : f.isExpression = true) :
    f.value.count Byte.leftBrace = f.value.count Byte.rightBrace ∧
      ∀ s, text.drop f.offset = Byte.dollar :: Byte.leftBrace :: s →
        (∃ rest, s = f.value ++ Byte.rightBrace :: rest) ∧ (∃ x, e.registry.compile f.value = .ok x) ∧
          ∀ source rest, s = source ++ Byte.rightBrace :: rest →
            source.count Byte.leftBrace = source.count Byte.rightBrace →
            (f.value.length < source.length → ∃ failure, e.registry.compile source = .error failure) ∧
              (Byte.leftBrace ∉ source → Byte.rightBrace ∉ source →
                f.value = source ∨ source ++ [Byte.rightBrace] <+: f.value) := by
  obtain ⟨cache, hfragments, _⟩ := Engine.answers_run he.justifies (e.registry.answers_fragments text)
  have hcovering := covering_fragments ((congrArg Prod.fst hfragments).symm.trans h)
  cases hcovering.expression f hf hexpression with
  | braced rest hdrop _ heven hlongest =>
    refine ⟨by simpa [hasEvenBraces] using heven, fun s hs => ?_⟩
    rw [hdrop] at hs
    cases hs
    refine ⟨⟨rest, rfl⟩, ?_, fun source after hsource hcount => ?_⟩
    · cases hcompile : e.registry.compile f.value with
      | ok x => exact ⟨x, rfl⟩
      | error failure =>
        have hchecked := hlongest.checked
        rw [hcompile] at hchecked
        cases hchecked
    · rcases append_cons_cases hsource with rfl | ⟨more, rfl, hmore⟩ | ⟨more, hvalue⟩
      · exact ⟨fun hlt => absurd hlt (Nat.lt_irrefl _), fun _ _ => .inl rfl⟩
      · refine ⟨fun _ => ?_, fun _ hclose => absurd (List.mem_append_right _ List.mem_cons_self) hclose⟩
        have hrefused := hlongest.longer hmore (by simpa [hasEvenBraces] using hcount)
        cases hcompile : e.registry.compile (f.value ++ Byte.rightBrace :: more) with
        | ok x =>
          rw [hcompile] at hrefused
          exact absurd rfl hrefused
        | error failure => exact ⟨failure, rfl⟩
      · refine ⟨fun hlt => ?_, fun _ _ => .inr ⟨more, by rw [hvalue]; simp⟩⟩
        rw [hvalue, List.length_append] at hlt
        omega
  | short t name hdrop hname _ hvalue =>
    have hbraceless := braceless_short hname (e.registry.defaultType == utf8 "path")
    rw [← hvalue] at hbraceless
    refine ⟨?_, fun s hs => ?_⟩
    · rw [List.count_eq_zero.2 fun hmem => (hbraceless _ hmem).1 rfl,
        List.count_eq_zero.2 fun hmem => (hbraceless _ hmem).2 rfl]
    · -- A name with dots does not begin with a brace.
      rw [hdrop] at hs
      cases hs
      cases hname

theorem braces_of_fragment_with_dict :
    let e := Engine.initial (utf8 "expr") []
    let f : Fragment := ⟨utf8 "\x7bk: a\x7d.k|b", true, 0, 13⟩
    let text := utf8 "$\x7b\x7bk: a\x7d.k|b\x7d $\x7bc\x7d"
    let source := utf8 "\x7bk: a\x7d.k|b\x7d $\x7bc"
    (e.fragments text).1 = .ok [f, ⟨utf8 " ", false, 13, 14⟩, ⟨utf8 "c", true, 14, 18⟩] ∧
      (∃ x, e.registry.compile f.value = .ok x) ∧ source.count Byte.leftBrace = source.count Byte.rightBrace ∧
        ∃ failure, e.registry.compile source = .error failure := by
  intro e f text source
  have hfragments : (e.fragments text).1 = .ok [f, ⟨utf8 " ", false, 13, 14⟩, ⟨utf8 "c", true, 14, 18⟩] :=
    eq_ok_of_toOption (by decide +kernel)
  have hbraces := (Engine.Reachable.initial _ _ _).braces_of_fragment hfragments List.mem_cons_self rfl
  obtain ⟨_, hcompiles, hlonger⟩ := hbraces.2 (source ++ [Byte.rightBrace]) rfl
  have hcount : source.count Byte.leftBrace = source.count Byte.rightBrace := by decide
  exact ⟨hfragments, hcompiles, hcount, (hlonger source [] rfl hcount).1 (by decide)⟩

/-- Texts with interpolations are sources as well, and one of them may go on over the end of another. -/
theorem fragments_merged :
    ((Engine.initial (utf8 "expr") []).fragments (utf8 "$\x7bstring:a\x7d $\x7bstring:b\x7d")).1 =
      .ok [⟨utf8 "string:a\x7d $\x7bstring:b", true, 0, 23⟩] :=
  eq_ok_of_toOption (by decide +kernel)

end PageTemplate.Expression
