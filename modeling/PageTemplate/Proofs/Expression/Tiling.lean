import PageTemplate.Proofs.Expression.Fragments
import PageTemplate.Proofs.Preparation

/-!
The fragments that an engine finds in a text cover it, and each can be told from its stretch. Compiling forgets no
source, so an expression between braces, which is compiled to find its end, still compiles when all fragments are found.
No failure that it ends in has a site.
-/

namespace PageTemplate.Expression

open Engine (Compiling)

/-! ### Compiling, step by step -/

section

variable {m : Type → Type} [Monad m] [MonadExceptOf Failure m] {E : {α : Type} → m α → (α → Prop) → Prop}
  {Fine : Failure → Prop} {Good : Bytes → Prop} {r : Registry} {memo : Bytes → m Evaluator → m Evaluator}

/-- What the host fails with in compiling an expression of the type is fine. -/
def ExpressionType.Fails (Fine : Failure → Prop) (t : ExpressionType) : Prop :=
  ∀ compile, t.method = .host compile → ∀ s f, compile s = .error f → Fine f

/-- What is said of compiling with so much fuel, in each of its forms: a source that compiles is good. -/
structure CompilesGood (Fine : Failure → Prop) (E : {α : Type} → m α → (α → Prop) → Prop) (Good : Bytes → Prop)
    (r : Registry) (memo : Bytes → m Evaluator → m Evaluator) (fuel : Nat) : Prop where
  source : ∀ s, E (compileSource r memo fuel s) fun _ => Good s
  typed : ∀ name s, E (compileAs r memo fuel name s) fun _ => True
  whole : ∀ t s, t.Fails Fine → E (compileWith r memo fuel t s) fun _ => True

namespace Tracks

variable (hE : Tracks m Fine E)
variable {fuel : Nat}

include hE

theorem ofExcept {α : Type} {x : Except Failure α} (hx : ∀ f, x = .error f → Fine f) :
    E (MonadExcept.ofExcept x) fun _ => True := by
  cases x with
  | ok a => exact hE.pure trivial
  | error f => exact hE.throw _ (hx f rfl)

theorem compileFewest {α : Type} {compile : Bytes → m α} (hcompile : ∀ s, E (compile s) fun _ => True) (taken : Bytes)
    (segs : List Bytes) : E (compileFewest compile taken segs) fun _ => True := by
  have htaken : ∀ taken (segs : List Bytes), E (do return (← compile taken, segs)) fun _ => True :=
    fun taken segs => hE.andThen (hcompile taken) fun _ => hE.pure trivial
  induction segs generalizing taken with
  | nil => exact htaken taken []
  | cons seg segs ih => exact hE.tryCatch (htaken taken (seg :: segs)) fun _ _ => ih _

section Alternatives

variable {compile : ExpressionType → Bytes → m Evaluator}

theorem further {t : ExpressionType} (hcompile : ∀ s, E (compile t s) fun _ => True)
    (hlater : ∀ segs, E (compileAlternatives r compile fuel none segs) fun _ => True) (body : Bytes) (segs : List Bytes) :
    E (do
      let (e, rest) ← Expression.compileFewest (compile t) body segs
      return e :: (← compileAlternatives r compile fuel none rest)) fun _ => True :=
  hE.andThen (hE.compileFewest hcompile body segs) fun _ => hE.andThen (hlater _) fun _ => hE.pure trivial

theorem compileAlternatives (hcompile : ∀ t s, t.Fails Fine → E (compile t s) fun _ => True)
    (hr : ∀ name t, r.types.get? name = some t → t.Fails Fine) (fuel : Nat) (first : Option ExpressionType)
    (hfirst : ∀ t ∈ first, t.Fails Fine) (segs : List Bytes) : E (compileAlternatives r compile fuel first segs)
      fun _ => True := by
  induction fuel generalizing first segs with
  | zero =>
    unfold Expression.compileAlternatives
    exact hE.pure trivial
  | succ fuel ih =>
    cases segs with
    | nil => exact hE.pure trivial
    | cons seg segs =>
      unfold Expression.compileAlternatives
      dsimp only
      cases first with
      | some t => exact hE.further (fun s => hcompile t s (hfirst t rfl)) (ih none (by simp)) seg segs
      | none =>
        dsimp only
        split
        · exact hE.throw _ (hE.unlocated _ rfl)
        next t ht =>
        have ht := fun s => hcompile t s (hr _ t ht)
        split
        · exact hE.andThen (ht _) fun _ => hE.pure trivial
        · exact hE.further ht (ih none (by simp)) _ segs

end Alternatives

variable (hr : ∀ name t, r.types.get? name = some t → t.Fails Fine)
  (hmemo : ∀ source act, E act (fun _ => True) → E (memo source act) fun _ => Good source)
include hr hmemo

theorem compilesGood_succ [LawfulMonad m] (h : CompilesGood Fine E Good r memo fuel) :
    CompilesGood Fine E Good r memo (fuel + 1) where
  source s := hmemo s _ (h.typed _ _)
  typed name s := by
    unfold compileAs
    cases ht : r.types.get? name with
    | none => exact hE.throw _ (hE.unlocated _ rfl)
    | some t =>
      have ht := hr name t ht
      dsimp only
      split
      · refine hE.andThen (hE.compileAlternatives h.whole hr _ (some t) (fun t' h => ?_) _) fun _ => hE.pure trivial
        cases h
        exact ht
      · exact h.whole t s ht
  whole t s ht := by
    have hinner : ∀ f : Evaluator → Evaluator, E (do return f (← compileSource r memo fuel s)) fun _ => True :=
      fun f => hE.andThen (h.source s) fun _ => hE.pure trivial
    unfold compileWith
    cases hmethod : t.method with
    | term => exact hE.ofExcept fun f hf => hE.unlocated f (unlocated_compileTerm r.terms s f hf)
    | path => exact hE.ofExcept fun f hf => hE.unlocated f (unlocated_compilePath s f hf)
    | text =>
      have hcheck : ∀ s, E (do let _ ← compileSource r memo fuel s) fun _ => Good s :=
        fun s => hE.bind (h.source s) fun _ _ => hE.pure fun hs => hs
      refine hE.andThen (hE.fragments (hE.bracedSource? hcheck) _ s) fun fs => ?_
      refine hE.andThen (hE.mapM (fun f => ?_) fs) fun _ => hE.pure trivial
      split
      · exact hE.mono (h.source _) fun _ _ => trivial
      · exact hE.pure trivial
    | negation => exact hinner .negated
    | presence => exact hinner .present
    | markup => exact hinner .asMarkup
    | importing =>
      dsimp only
      split
      · exact hE.pure trivial
      · exact hE.throw _ (hE.unlocated _ rfl)
    | load template =>
      dsimp only
      split
      · exact hE.throw _ (hE.unlocated _ rfl)
      · exact hE.pure trivial
    | host compile => exact hE.ofExcept (ht compile hmethod s)

theorem compilesGood [LawfulMonad m] (fuel : Nat) : CompilesGood Fine E Good r memo fuel := by
  induction fuel with
  | zero =>
    have htooDeep : ∀ {α : Type} {Q : α → Prop}, E (throwThe Failure tooDeep) Q := hE.throw _ (hE.unlocated _ rfl)
    exact ⟨fun _ => htooDeep, fun _ _ => htooDeep, fun _ _ _ => htooDeep⟩
  | succ fuel ih => exact hE.compilesGood_succ hr hmemo ih

end Tracks

end

namespace Registry

variable {r : Registry} (hr : r.IsNative)
include hr

theorem unlocated_compile (source : Bytes) : Unlocated (r.compile source) := by
  have hgood := (tracks_except fun _ hf => hf).compilesGood
    (fun name t ht compile hhost => absurd hhost (hr name t ht compile)) (fun _ _ h => h) (fuelFor source)
  exact (hgood.source source).2

theorem unlocated_fragments (text : Bytes) : Unlocated (r.fragments text) := by
  have hcheck : ∀ s, (∀ a, (do let _ ← r.compile s : Except Failure Unit) = .ok a → True) ∧
      Unlocated (do let _ ← r.compile s) :=
    fun s => ⟨fun _ _ => trivial, .bind (r.unlocated_compile hr s) fun _ => .ok _⟩
  have htracks := tracks_except fun (f : Failure) (hf : f.site? = none) => hf
  exact (htracks.fragments (htracks.bracedSource? hcheck) _ text).2

end Registry

theorem Engine.run_eq {α : Type} (e : Engine) (act : Compiling α) :
    e.run act = ((act.run.run e.cache).1, { e with cache := (act.run.run e.cache).2 }) := rfl

theorem Engine.run_remember (source : Bytes) (act : Compiling Evaluator) (cache : Assoc Evaluator) :
    (Engine.remember source act).run.run cache =
      match cache.get? source with
      | some e => (.ok e, cache)
      | none =>
        match act.run.run cache with
        | (.ok e, c) => (.ok e, c.insert source e)
        | (.error f, c) => (.error f, c) := by
  have hget : (get : Compiling (Assoc Evaluator)).run.run cache = (.ok cache, cache) := rfl
  unfold Engine.remember
  rw [Engine.run_bind, hget]
  dsimp only
  cases cache.get? source with
  | some e => rfl
  | none =>
    dsimp only
    rw [Engine.run_bind]
    rcases act.run.run cache with ⟨answer, c⟩
    cases answer <;> rfl

/-- The computation forgets no source. If only given sources are remembered after it, its result is as said. -/
def Retains (P : Bytes → Prop) {α : Type} (act : Compiling α) (Q : α → Prop) : Prop :=
  ∀ cache, (∀ s, cache.contains s = true → (act.run.run cache).2.contains s = true) ∧
    ((∀ s, (act.run.run cache).2.contains s = true → P s) → ∀ a, (act.run.run cache).1 = .ok a → Q a)

namespace Retains

variable {P : Bytes → Prop}

theorem bind {α β : Type} {x : Compiling β} {f : β → Compiling α} {R : β → Prop} {Q : α → Prop} (hx : Retains P x R)
    (hf : ∀ b, Retains P (f b) fun a => R b → Q a) : Retains P (x >>= f) Q := by
  intro cache
  obtain ⟨hkept, hresult⟩ := hx cache
  rw [Engine.run_bind]
  rcases hrun : x.run.run cache with ⟨answer, c⟩
  rw [hrun] at hkept hresult
  cases answer with
  | error e => exact ⟨hkept, fun _ _ ha => by cases ha⟩
  | ok b =>
    obtain ⟨hkept', hresult'⟩ := hf b c
    refine ⟨fun s hs => hkept' s (hkept s hs), fun hafter a ha => ?_⟩
    exact hresult' hafter a ha (hresult (fun s hs => hafter s (hkept' s hs)) b rfl)

theorem tryCatch {α : Type} {x : Compiling α} {handle : Failure → Compiling α} {Q : α → Prop} (hx : Retains P x Q)
    (hhandle : ∀ f, Retains P (handle f) Q) : Retains P (tryCatchThe Failure x handle) Q := by
  intro cache
  obtain ⟨hkept, hresult⟩ := hx cache
  rw [Engine.run_tryCatch]
  rcases hrun : x.run.run cache with ⟨answer, c⟩
  rw [hrun] at hkept hresult
  cases answer with
  | ok a => exact ⟨hkept, hresult⟩
  | error e =>
    obtain ⟨hkept', hresult'⟩ := hhandle e c
    exact ⟨fun s hs => hkept' s (hkept s hs), hresult'⟩

theorem tracks (P : Bytes → Prop) : Tracks Compiling (fun _ => True) (Retains P) where
  unlocated _ _ := trivial
  pure h cache := by
    refine ⟨fun _ hs => hs, fun _ a ha => ?_⟩
    cases ha
    exact h
  mono h hRQ cache := ⟨(h cache).1, fun hafter a ha => hRQ a ((h cache).2 hafter a ha)⟩
  throw _ _ cache := ⟨fun _ hs => hs, fun _ _ ha => by cases ha⟩
  bind hx hf := bind hx fun b => hf b (.inl fun _ => trivial)
  tryCatch hx hhandle := tryCatch hx fun f => hhandle f trivial

theorem remember (source : Bytes) (act : Compiling Evaluator) (h : Retains P act fun _ => True) :
    Retains P (Engine.remember source act) fun _ => P source := by
  intro cache
  rw [Engine.run_remember]
  cases hfound : cache.get? source with
  | some e => exact ⟨fun _ hs => hs, fun hafter _ _ => hafter source (by simp [Assoc.contains, hfound])⟩
  | none =>
    have hkept := (h cache).1
    rcases hrun : act.run.run cache with ⟨answer, c⟩
    rw [hrun] at hkept
    cases answer with
    | error f => exact ⟨hkept, fun _ _ ha => by cases ha⟩
    | ok e =>
      have hinsert : ∀ s, (c.insert source e).contains s = true ↔ s = source ∨ c.contains s = true := by
        intro s
        rw [Assoc.contains, Assoc.get?_insert]
        split
        · next hs => simp [hs]
        · next hs => simp [hs, Assoc.contains]
      refine ⟨fun s hs => (hinsert s).2 (.inr (hkept s hs)), fun hafter _ _ => hafter source ?_⟩
      exact (hinsert source).2 (.inl rfl)

theorem compileSource (r : Registry) (fuel : Nat) (s : Bytes) :
    Retains P (compileSource r Engine.remember fuel s) fun _ => P s :=
  ((tracks P).compilesGood (fun _ _ _ _ _ _ _ _ => trivial) remember fuel).source s

end Retains

theorem Engine.compile_of_contains {e : Engine} {source : Bytes} (h : e.cache.contains source = true) :
    ∃ x, e.compile source = (.ok x, e) := by
  obtain ⟨x, hx⟩ := Option.isSome_iff_exists.1 h
  have hrun : (compileSource e.registry Engine.remember (fuelFor source) source).run.run e.cache = (.ok x, e.cache) := by
    change (Engine.remember source _).run.run e.cache = _
    rw [Engine.run_remember, hx]
  refine ⟨x, ?_⟩
  rw [Engine.compile, Engine.run_eq, hrun]

/-- How the value of a short form is written: in a path, slashes are written as dots. -/
def shortForm (slashes : Bool) (value : Bytes) : Bytes :=
  if slashes then value.map fun b => if b = Byte.slash then Byte.period else b else value

theorem shortForm_eq {s name : Bytes} (hname : dottedName? s = some name) (slashes : Bool) :
    shortForm slashes (if slashes then name.map fun b => if b = Byte.period then Byte.slash else b else name) =
      name := by
  cases slashes with
  | false => rfl
  | true =>
    rw [shortForm, if_pos rfl, if_pos rfl, List.map_map]
    refine (List.map_congr_left fun b hb => ?_).trans (List.map_id name)
    have hslash : b ≠ Byte.slash := by
      rintro rfl
      have hbyte := mem_dottedName? hname hb
      revert hbyte
      decide
    by_cases hdot : b = Byte.period
    · simp [hdot]
    · simp [hdot, hslash]

theorem Fragment.CutFrom.range_eq {Good : Bytes → Bytes → Prop} {slashes : Bool} {text : Bytes} {f : Fragment}
    (h : f.CutFrom Good slashes text) :
    (f.range text = utf8 "$\x7b" ++ f.value ++ utf8 "\x7d" ∧ ∃ rest, Good f.value rest) ∨
      (f.range text = Byte.dollar :: shortForm slashes f.value ∧
        dottedName? (text.drop (f.offset + 1)) = some (shortForm slashes f.value)) := by
  cases h with
  | braced rest hdrop hstop _ hgood =>
    refine .inl ⟨?_, rest, hgood⟩
    have henclosed : Byte.dollar :: Byte.leftBrace :: (f.value ++ Byte.rightBrace :: rest) =
        (utf8 "$\x7b" ++ f.value ++ utf8 "\x7d") ++ rest := by
      rw [List.append_assoc, List.append_assoc]
      rfl
    rw [Fragment.range, hdrop, henclosed]
    refine List.take_left' ?_
    have hopen : (utf8 "$\x7b").length = 2 := rfl
    have hclose : (utf8 "\x7d").length = 1 := rfl
    rw [List.length_append, List.length_append, hopen, hclose]
    omega
  | short s name hdrop hname hstop hvalue =>
    have hshort : shortForm slashes f.value = name := by rw [hvalue, shortForm_eq hname]
    obtain ⟨after, rfl⟩ := (prefix_of_dottedName? hname).1
    rw [hshort, ← List.drop_drop, hdrop, Fragment.range, hdrop, hstop, Nat.add_assoc, Nat.add_sub_cancel_left]
    exact .inr ⟨by simp, hname⟩

/-- The fragments that an engine finds in a text cover it end to end, and no two literals are adjacent. A literal is its
stretch with dollars collapsed, and no expression begins in it. Any other fragment compiles and is between braces, or is
a short form. -/
theorem Engine.fragments_tile_text {e : Engine} {text : Bytes} {fs : List Fragment}
    (h : (e.fragments text).1 = .ok fs) :
    Tiles Fragment.offset Fragment.stop 0 fs text.length ∧
      fs.IsChain (fun f g => f.isExpression = true ∨ g.isExpression = true) ∧
        ∀ f ∈ fs,
          if f.isExpression then
            (f.range text = utf8 "$\x7b" ++ f.value ++ utf8 "\x7d" ∧
              ∃ x, (e.fragments text).2.compile f.value = (.ok x, (e.fragments text).2)) ∨
            (f.range text = Byte.dollar :: shortForm (e.registry.defaultType == utf8 "path") f.value ∧
              dottedName? (text.drop (f.offset + 1)) =
                some (shortForm (e.registry.defaultType == utf8 "path") f.value))
          else f.value = collapseDollars (f.range text) ∧ Inert (text.drop f.stop) (f.range text) := by
  let Remembered : Bytes → Prop := fun s => (e.fragments text).2.cache.contains s = true
  have hcheck : ∀ s, Retains Remembered (do let _ ← compileSource e.registry Engine.remember (fuelFor s) s) fun _ =>
      Remembered s :=
    fun s => .bind (.compileSource e.registry (fuelFor s) s) fun _ => (Retains.tracks _).pure fun hs => hs
  have hcovering := ((Retains.tracks _).fragments ((Retains.tracks _).bracedSource? hcheck) _ text e.cache).2
    (fun _ hs => hs) fs h
  refine ⟨hcovering.tiles, hcovering.apart, fun f hf => ?_⟩
  split
  · next hexpression =>
    refine (hcovering.expression f hf hexpression).range_eq.imp_left fun hbraced => ⟨hbraced.1, ?_⟩
    obtain ⟨_, hremembered⟩ := hbraced.2
    exact Engine.compile_of_contains hremembered
  · next hliteral => exact hcovering.literal f hf (by simpa using hliteral)

theorem Engine.fragments_tile_text_path :
    let e := Engine.initial (utf8 "path") []
    let text := utf8 "x $$ \\$ $\x7ba/b\x7d$c.d. $\x7b"
    let fs : List Fragment := [⟨utf8 "x $ \\$ ", false, 0, 8⟩, ⟨utf8 "a/b", true, 8, 14⟩, ⟨utf8 "c/d", true, 14, 18⟩,
      ⟨utf8 ". $\x7b", false, 18, 22⟩]
    (e.fragments text).1 = .ok fs ∧ Tiles Fragment.offset Fragment.stop 0 fs 22 ∧
      (∃ x, (e.fragments text).2.compile (utf8 "a/b") = (.ok x, (e.fragments text).2)) ∧
        shortForm true (utf8 "c/d") = utf8 "c.d" := by
  intro e text fs
  have hfragments : (e.fragments text).1 = .ok fs := eq_ok_of_toOption (by decide +kernel)
  obtain ⟨htiles, _, hfs⟩ := Engine.fragments_tile_text hfragments
  have hbraced := (hfs ⟨utf8 "a/b", true, 8, 14⟩ (by simp [fs])).resolve_right fun hshort => by
    have hrange := hshort.1
    revert hrange
    decide +kernel
  exact ⟨hfragments, htiles, hbraced.2, rfl⟩

end PageTemplate.Expression
