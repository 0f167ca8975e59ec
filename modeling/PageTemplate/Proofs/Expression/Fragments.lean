import Mathlib.Data.List.Chain
import PageTemplate.Expression.Engine
import PageTemplate.Proofs.Bytes

/-!
The fragments of an interpolated text, as an engine finds them. They cover the text, and each stands for its stretch of
it. What an engine compiles goes through its memory; `Tracks` is what the induction over a text needs to know of that.
-/

namespace PageTemplate.Expression

open Engine (Compiling)

variable {α β : Type}
variable {s text : Bytes}
variable {b c : UInt8} {name : Bytes} {slashes : Bool} {f : Fragment} {fs : List Fragment}

/-! ### Computations with memory -/

variable {Good : Bytes → Bytes → Prop}

theorem Engine.run_bind (x : Compiling β) (f : β → Compiling α) (cache : Assoc Evaluator) :
    (x >>= f).run.run cache =
      match x.run.run cache with
      | (.ok b, c) => (f b).run.run c
      | (.error e, c) => (.error e, c) := by
  rw [ExceptT.run_bind, StateT.run_bind]
  rcases x.run.run cache with ⟨r, c⟩
  cases r <;> rfl

theorem Engine.run_tryCatch (x : Compiling α) (handle : Failure → Compiling α) (cache : Assoc Evaluator) :
    (tryCatchThe Failure x handle).run.run cache =
      match x.run.run cache with
      | (.ok a, c) => (.ok a, c)
      | (.error e, c) => (handle e).run.run c := by
  have hcatch : tryCatchThe Failure x handle = tryCatch x handle := rfl
  rw [hcatch, ExceptT.run_tryCatch, StateT.run_bind]
  rcases x.run.run cache with ⟨r, c⟩
  cases r <;> rfl

theorem mem_beforeClosings {u : Bytes} (seen rest : Bytes) :
    seen.reverse ++ u ∈ beforeClosings seen (u ++ Byte.rightBrace :: rest) := by
  induction u generalizing seen with
  | nil => simp [beforeClosings]
  | cons c u ih =>
    have hmem := ih (c :: seen)
    rw [List.reverse_cons, List.append_assoc, List.singleton_append] at hmem
    rw [List.cons_append, beforeClosings]
    split
    · exact List.mem_cons_of_mem _ hmem
    · exact hmem

theorem exists_of_mem_beforeClosings {seen source : Bytes} (h : source ∈ beforeClosings seen s) :
    ∃ u rest, source = seen.reverse ++ u ∧ s = u ++ Byte.rightBrace :: rest := by
  induction s generalizing seen with
  | nil => simp [beforeClosings] at h
  | cons c s ih =>
    have hlater : source ∈ beforeClosings (c :: seen) s →
        ∃ u rest, source = seen.reverse ++ u ∧ c :: s = u ++ Byte.rightBrace :: rest := by
      intro hmem
      obtain ⟨u, rest, rfl, rfl⟩ := ih hmem
      exact ⟨c :: u, rest, by simp, rfl⟩
    rw [beforeClosings] at h
    split at h
    · next hc =>
      rcases List.mem_cons.1 h with rfl | h
      · exact ⟨[], s, by simp, by rw [hc]; rfl⟩
      · exact hlater h
    · exact hlater h

theorem pairwise_beforeClosings (seen s : Bytes) :
    (beforeClosings seen s).Pairwise fun source source' => source.length < source'.length := by
  induction s generalizing seen with
  | nil => exact .nil
  | cons c s ih =>
    rw [beforeClosings]
    split
    · refine List.pairwise_cons.2 ⟨fun source hsource => ?_, ih (c :: seen)⟩
      obtain ⟨u, _, rfl, _⟩ := exists_of_mem_beforeClosings hsource
      simp only [List.length_append, List.length_reverse, List.length_cons]
      omega
    · exact ih (c :: seen)

theorem isPrefix_dottedRun (s : Bytes) : dottedRun s <+: s := by
  induction s with
  | nil => exact List.prefix_rfl
  | cons c s ih =>
    rw [dottedRun]
    split
    · exact (List.cons_prefix_cons).2 ⟨rfl, ih⟩
    · split
      · exact (List.cons_prefix_cons).2 ⟨rfl, ih⟩
      · exact List.nil_prefix

theorem mem_dottedRun (h : b ∈ dottedRun s) : Byte.isIdentifierPart b = true ∨ b = Byte.period := by
  induction s with
  | nil => cases h
  | cons c s ih =>
    rw [dottedRun] at h
    split at h
    · next hc =>
      rcases List.mem_cons.1 h with rfl | h
      · exact .inl hc
      · exact ih h
    split at h
    · next hc =>
      simp only [Bool.and_eq_true, decide_eq_true_eq] at hc
      rcases List.mem_cons.1 h with rfl | h
      · exact .inr hc.1
      · exact ih h
    · cases h

theorem mem_dottedName? (h : dottedName? s = some name) (hb : b ∈ name) :
    Byte.isIdentifierPart b = true ∨ b = Byte.period := by
  unfold dottedName? at h
  split at h
  · cases h
    exact mem_dottedRun hb
  · cases h

theorem prefix_of_dottedName? (h : dottedName? s = some name) : name <+: s ∧ name.head? ≠ some Byte.dollar := by
  unfold dottedName? at h
  split at h
  · next hstart =>
    cases h
    refine ⟨isPrefix_dottedRun s, fun hhead => ?_⟩
    obtain ⟨rest, hrest⟩ := List.head?_eq_some_iff.1 hhead
    obtain ⟨after, hafter⟩ := isPrefix_dottedRun s
    rw [hrest] at hafter
    rw [← hafter] at hstart
    have hdollar : Byte.isIdentifierStart Byte.dollar = true := hstart
    exact absurd hdollar (by decide)
  · cases h

/-- What is said of the results of computations goes from their steps to the whole, if what fails is fine. A failure
without a site always is. Unless all are, what a step gives is known when the next is taken. -/
structure Tracks (m : Type → Type) [Monad m] [MonadExceptOf Failure m] (Fine : Failure → Prop)
    (E : {α : Type} → m α → (α → Prop) → Prop) : Prop where
  unlocated (f : Failure) : f.site? = none → Fine f
  pure {α : Type} {a : α} {Q : α → Prop} : Q a → E (Pure.pure a) Q
  mono {α : Type} {act : m α} {R Q : α → Prop} : E act R → (∀ a, R a → Q a) → E act Q
  throw {α : Type} {f : Failure} (Q : α → Prop) : Fine f → E (throwThe Failure f) Q
  bind {α β : Type} {x : m β} {f : β → m α} {R : β → Prop} {Q : α → Prop} :
    E x R → (∀ b, (∀ f, Fine f) ∨ R b → E (f b) fun a => R b → Q a) → E (x >>= f) Q
  tryCatch {α : Type} {x : m α} {handle : Failure → m α} {Q : α → Prop} :
    E x Q → (∀ f, Fine f → E (handle f) Q) → E (tryCatchThe Failure x handle) Q

theorem tracks_except {Fine : Failure → Prop} (hfine : ∀ f : Failure, f.site? = none → Fine f) :
    Tracks (Except Failure) Fine fun x Q => (∀ a, x = .ok a → Q a) ∧ ∀ f, x = .error f → Fine f where
  unlocated := hfine
  pure h := ⟨fun a ha => by cases ha; exact h, fun _ hf => by cases hf⟩
  mono h hRQ := ⟨fun a ha => hRQ a (h.1 a ha), h.2⟩
  throw _ h := ⟨fun _ ha => (by cases ha), fun _ hf => by cases hf; exact h⟩
  bind {_ _ x _ _ _} hx hf := by
    cases x with
    | ok b =>
      have hb := hx.1 b rfl
      exact ⟨fun a ha => (hf b (.inr hb)).1 a ha hb, (hf b (.inr hb)).2⟩
    | error e => exact ⟨fun _ ha => (by cases ha), fun _ hf => by cases hf; exact hx.2 e rfl⟩
  tryCatch {_ x _ _} hx hhandle := by
    cases x with
    | ok b => exact hx
    | error e => exact hhandle e (hx.2 e rfl)

/-- An expression is cut from between braces, or is a name with dots, which become slashes if that is asked for. -/
inductive Fragment.CutFrom (Good : Bytes → Bytes → Prop) (slashes : Bool) (text : Bytes) (f : Fragment) : Prop where
  | braced (rest : Bytes) : text.drop f.offset = Byte.dollar :: Byte.leftBrace :: (f.value ++ Byte.rightBrace :: rest) →
    f.stop = f.offset + f.value.length + 3 → hasEvenBraces f.value = true → Good f.value rest →
    CutFrom Good slashes text f
  | short (s name : Bytes) : text.drop f.offset = Byte.dollar :: s → dottedName? s = some name →
    f.stop = f.offset + name.length + 1 →
    f.value = (if slashes then name.map fun b => if b = Byte.period then Byte.slash else b else name) →
    CutFrom Good slashes text f

/-- A text in which `\$` stays and every other `$$` becomes one dollar. -/
def collapseDollars : Bytes → Bytes
  | [] => []
  | [c] => [c]
  | c :: d :: s =>
    if c = Byte.backslash && d = Byte.dollar then c :: d :: collapseDollars s
    else if c = Byte.dollar && d = Byte.dollar then d :: collapseDollars s
    else c :: collapseDollars (d :: s)

/-- A dollar before the text begins an expression, or it would if that compiled. -/
def BeginsExpression (s : Bytes) : Prop :=
  (∃ name, dottedName? s = some name) ∨
    ∃ source rest, s = Byte.leftBrace :: (source ++ Byte.rightBrace :: rest) ∧ hasEvenBraces source = true

/-- A text in which no expression begins when `rest` follows it. -/
def Inert (rest : Bytes) : Bytes → Prop
  | [] => True
  | [c] => c = Byte.dollar → ¬ BeginsExpression rest
  | c :: d :: s =>
    if (c = Byte.backslash || c = Byte.dollar) && d = Byte.dollar then Inert rest s
    else (c = Byte.dollar → ¬ BeginsExpression (d :: s ++ rest)) ∧ Inert rest (d :: s)

def Fragment.range (text : Bytes) (f : Fragment) : Bytes := (text.drop f.offset).take (f.stop - f.offset)

/-- Fragments that cover a text from an offset on, each with its stretch. No literal follows a literal. -/
structure Covering (Good : Bytes → Bytes → Prop) (slashes : Bool) (text : Bytes) (i : Nat) (fs : List Fragment) : Prop where
  tiles : Tiles Fragment.offset Fragment.stop i fs text.length
  literal : ∀ f ∈ fs, f.isExpression = false →
    f.value = collapseDollars (f.range text) ∧ Inert (text.drop f.stop) (f.range text)
  expression : ∀ f ∈ fs, f.isExpression = true → f.CutFrom Good slashes text
  apart : fs.IsChain fun f g => f.isExpression = true ∨ g.isExpression = true

theorem Fragment.CutFrom.stop_le (h : f.CutFrom Good slashes text) : f.offset < f.stop ∧ f.stop ≤ text.length := by
  cases h with
  | braced rest hdrop hstop _ _ =>
    have hlength := congrArg List.length hdrop
    simp only [List.length_drop, List.length_cons, List.length_append] at hlength
    omega
  | short s name hdrop hname hstop _ =>
    have hlength := congrArg List.length hdrop
    have hprefix := (prefix_of_dottedName? hname).1.length_le
    simp only [List.length_drop, List.length_cons] at hlength
    omega

theorem Covering.cons {text : Bytes} (hexpression : f.isExpression = true) (hf : f.CutFrom Good slashes text)
    (hfs : Covering Good slashes text f.stop fs) : Covering Good slashes text f.offset (f :: fs) where
  tiles := ⟨rfl, hf.stop_le.1, hfs.tiles⟩
  literal := List.forall_mem_cons.2 ⟨fun h => (by rw [hexpression] at h; cases h), hfs.literal⟩
  expression := List.forall_mem_cons.2 ⟨fun _ => hf, hfs.expression⟩
  apart := by
    cases fs with
    | nil => exact .singleton f
    | cons g fs => exact List.isChain_cons_cons.2 ⟨.inl hexpression, hfs.apart⟩

/-! ### Literals -/

theorem not_beginsExpression_nil : ¬ BeginsExpression [] := by
  rintro (⟨name, hname⟩ | ⟨source, rest, hs, _⟩)
  · cases hname
  · cases hs

theorem not_beginsExpression {d : UInt8} (hname : dottedName? (d :: s) = none) (hd : d ≠ Byte.leftBrace) :
    ¬ BeginsExpression (d :: s) := by
  rintro (⟨name, hsome⟩ | ⟨source, rest, hs, _⟩)
  · rw [hname] at hsome
    cases hsome
  · cases hs
    exact hd rfl

theorem not_beginsExpression_brace
    (h : ∀ source rest, s = source ++ Byte.rightBrace :: rest → hasEvenBraces source = false) :
    ¬ BeginsExpression (Byte.leftBrace :: s) := by
  rintro (⟨name, hname⟩ | ⟨source, rest, hs, heven⟩)
  · cases hname
  · cases hs
    rw [h source rest rfl] at heven
    cases heven

theorem collapseDollars_cons (h : c = Byte.backslash ∨ c = Byte.dollar → s.head? ≠ some Byte.dollar) :
    collapseDollars (c :: s) = c :: collapseDollars s := by
  cases s with
  | nil => rfl
  | cons d s =>
    have hfirst : ¬ (c = Byte.backslash ∧ d = Byte.dollar) := fun hboth => h (.inl hboth.1) (congrArg some hboth.2)
    have hsecond : ¬ (c = Byte.dollar ∧ d = Byte.dollar) := fun hboth => h (.inr hboth.1) (congrArg some hboth.2)
    rw [collapseDollars, if_neg (by simpa using hfirst), if_neg (by simpa using hsecond)]

theorem inert_cons {rest : Bytes} (h : c = Byte.backslash ∨ c = Byte.dollar → s.head? ≠ some Byte.dollar)
    (hbegins : c = Byte.dollar → ¬ BeginsExpression (s ++ rest)) (hs : Inert rest s) : Inert rest (c :: s) := by
  cases s with
  | nil => exact hbegins
  | cons d s =>
    have hsingle : ¬ ((c = Byte.backslash ∨ c = Byte.dollar) ∧ d = Byte.dollar) :=
      fun hboth => h hboth.1 (congrArg some hboth.2)
    rw [Inert, if_neg (by simpa using hsingle)]
    exact ⟨hbegins, hs⟩

theorem eq_nil_of_collapseDollars (h : collapseDollars s = []) : s = [] := by
  unfold collapseDollars at h
  split at h
  · rfl
  · cases h
  · split at h
    · cases h
    split at h <;> cases h

/-- A literal that began at `start` is being read: `raw` up to `pos`, and `s` is left of the text. -/
structure ReadingLiteral (text raw literal : Bytes) (start pos : Nat) (s : Bytes) : Prop where
  text_eq : text.drop start = raw ++ s
  pos_eq : start + raw.length = pos
  length_eq : pos + s.length = text.length
  collapsed : ∀ n, collapseDollars (raw ++ s.take n) = literal.reverse ++ collapseDollars (s.take n)
  inert : ∀ n, Inert (s.drop n) (s.take n) → Inert (s.drop n) (raw ++ s.take n)

namespace ReadingLiteral

variable {text raw literal s : Bytes} {start pos : Nat}

theorem begin (h : pos ≤ text.length) : ReadingLiteral text [] [] pos pos (text.drop pos) where
  text_eq := rfl
  pos_eq := rfl
  length_eq := by simp [h]
  collapsed _ := rfl
  inert _ h := h

theorem drop_eq (h : ReadingLiteral text raw literal start pos s) : text.drop pos = s := by
  rw [← h.pos_eq, ← List.drop_drop, h.text_eq, List.drop_left]

theorem read (w w' : Bytes) (h : ReadingLiteral text raw literal start pos (w ++ s))
    (hw : ∀ n, collapseDollars (w ++ s.take n) = w' ++ collapseDollars (s.take n))
    (hinert : ∀ n, Inert (s.drop n) (s.take n) → Inert (s.drop n) (w ++ s.take n)) :
    ReadingLiteral text (raw ++ w) (w'.reverse ++ literal) start (pos + w.length) s where
  text_eq := by rw [h.text_eq, List.append_assoc]
  pos_eq := by rw [List.length_append, ← Nat.add_assoc, h.pos_eq]
  length_eq := by rw [← h.length_eq, List.length_append, Nat.add_assoc]
  collapsed n := by
    have hread := h.collapsed (w.length + n)
    rw [List.take_length_add_append, hw n] at hread
    rw [List.append_assoc, hread]
    simp
  inert n hs := by
    have hread := h.inert (w.length + n)
    rw [List.take_length_add_append, List.drop_length_add_append] at hread
    rw [List.append_assoc]
    exact hread (hinert n hs)

theorem plain (h : ReadingLiteral text raw literal start pos (c :: s))
    (hc : c = Byte.backslash ∨ c = Byte.dollar → s.head? ≠ some Byte.dollar)
    (hbegins : c = Byte.dollar → ¬ BeginsExpression s) :
    ReadingLiteral text (raw ++ [c]) (c :: literal) start (pos + 1) s := by
  have hsingle : ∀ n, c = Byte.backslash ∨ c = Byte.dollar → (s.take n).head? ≠ some Byte.dollar := by
    intro n hc' hhead
    cases n with
    | zero => simp at hhead
    | succ n => exact hc hc' (by simpa [List.head?_take] using hhead)
  refine read [c] [c] h (fun n => collapseDollars_cons (hsingle n)) fun n hs => ?_
  exact inert_cons (s := s.take n) (hsingle n) (by rwa [List.take_append_drop]) hs

theorem escaped (h : ReadingLiteral text raw literal start pos (Byte.backslash :: Byte.dollar :: s)) :
    ReadingLiteral text (raw ++ [Byte.backslash, Byte.dollar]) (Byte.dollar :: Byte.backslash :: literal) start (pos + 2)
      s :=
  h.read [Byte.backslash, Byte.dollar] [Byte.backslash, Byte.dollar] (fun _ => rfl) fun _ h => h

theorem doubled (h : ReadingLiteral text raw literal start pos (Byte.dollar :: Byte.dollar :: s)) :
    ReadingLiteral text (raw ++ [Byte.dollar, Byte.dollar]) (Byte.dollar :: literal) start (pos + 2) s :=
  h.read [Byte.dollar, Byte.dollar] [Byte.dollar] (fun _ => rfl) fun _ h => h

/-- The literal read so far, before fragments that cover what is left. -/
theorem covering {Good : Bytes → Bytes → Prop}
    (h : ReadingLiteral text raw literal start pos s) (hfs : Covering Good slashes text pos fs)
    (hhead : ∀ f, fs.head? = some f → f.isExpression = true) :
    Covering Good slashes text start (flushLiteral literal start pos fs) := by
  have hraw : collapseDollars raw = literal.reverse := by simpa [collapseDollars] using h.collapsed 0
  unfold flushLiteral
  split
  · next hempty =>
    rw [List.isEmpty_iff.1 hempty, List.reverse_nil] at hraw
    have hstart : start = pos := by simpa [eq_nil_of_collapseDollars hraw] using h.pos_eq
    rwa [hstart]
  · next hempty =>
    have hne : raw ≠ [] := by
      rintro rfl
      exact hempty (List.isEmpty_iff.2 (List.reverse_eq_nil_iff.1 hraw.symm))
    have hlt : start < pos := h.pos_eq ▸ Nat.lt_add_of_pos_right (List.length_pos_iff.2 hne)
    have hrange : Fragment.range text ⟨literal.reverse, false, start, pos⟩ = raw := by
      rw [Fragment.range, h.text_eq, ← h.pos_eq, Nat.add_sub_cancel_left, List.take_left]
    refine ⟨⟨rfl, hlt, hfs.tiles⟩, ?_, ?_, ?_⟩
    · refine List.forall_mem_cons.2 ⟨fun _ => ?_, hfs.literal⟩
      rw [hrange, hraw, h.drop_eq]
      exact ⟨rfl, by simpa using h.inert 0 trivial⟩
    · exact List.forall_mem_cons.2 ⟨fun h => (by cases h), hfs.expression⟩
    · cases fs with
      | nil => exact .singleton _
      | cons f fs => exact List.isChain_cons_cons.2 ⟨.inr (hhead f rfl), hfs.apart⟩

end ReadingLiteral

/-- What is found of a source at the beginning of a text: it is balanced and ends before a closing brace, and is as said
with what follows that. If there is none, nothing balanced ends so. -/
def SourceFound (Good : Bytes → Bytes → Prop) (s : Bytes) (found : Option Bytes) : Prop :=
  (∀ source ∈ found, ∃ rest, s = source ++ Byte.rightBrace :: rest ∧ hasEvenBraces source = true ∧ Good source rest) ∧
    (found = none → ∀ source rest, s = source ++ Byte.rightBrace :: rest → hasEvenBraces source = false)

namespace Tracks

variable {m : Type → Type} [Monad m] [MonadExceptOf Failure m] {Fine : Failure → Prop}
  {E : {α : Type} → m α → (α → Prop) → Prop} (hE : Tracks m Fine E)
include hE

theorem andThen {α β : Type} {x : m β} {f : β → m α} {R : β → Prop} (hx : E x R) (hf : ∀ b, E (f b) fun _ => True) :
    E (x >>= f) fun _ => True :=
  hE.bind hx fun b _ => hE.mono (hf b) fun _ _ _ => trivial

theorem mapM [LawfulMonad m] {α β : Type} {f : β → m α} (hf : ∀ b, E (f b) fun _ => True) (bs : List β) :
    E (bs.mapM f) fun _ => True := by
  induction bs with
  | nil =>
    rw [List.mapM_nil]
    exact hE.pure trivial
  | cons b bs ih =>
    rw [List.mapM_cons]
    exact hE.andThen (hf b) fun _ => hE.andThen ih fun _ => hE.pure trivial

section Checked

variable {Good : Bytes → Prop} {check : Bytes → m Unit} (hcheck : ∀ s, E (check s) fun _ => Good s)
include hcheck

theorem firstCompiling (failed : Option Failure) (hfailed : ∀ f ∈ failed, Fine f) (candidates : List Bytes) :
    E (firstCompiling check failed candidates) fun found =>
      (∀ c ∈ found, c ∈ candidates ∧ Good c) ∧ (found = none → failed = none ∧ candidates = []) := by
  induction candidates generalizing failed with
  | nil =>
    cases failed with
    | none => exact hE.pure ⟨by simp, fun _ => ⟨rfl, rfl⟩⟩
    | some f => exact hE.throw _ (hfailed f rfl)
  | cons c cs ih =>
    refine hE.bind (R := fun r => (r = none → Good c) ∧ ∀ f ∈ r, Fine f) ?_ fun r hknown => ?_
    · refine hE.tryCatch (hE.bind (hcheck c) fun _ _ => hE.pure fun hgood => ⟨fun _ => hgood, by simp⟩) fun f hf => ?_
      exact hE.pure ⟨fun h => (by cases h), fun f' hf' => by cases hf'; exact hf⟩
    · cases r with
      | none =>
        refine hE.pure fun hr => ⟨fun d hd => ?_, fun h => by cases h⟩
        cases hd
        exact ⟨List.mem_cons_self, hr.1 rfl⟩
      | some f =>
        have hfine : ∀ f' ∈ failed <|> some f, Fine f' := by
          cases failed with
          | some f₀ => exact hfailed
          | none => exact hknown.elim (fun hall f' _ => hall f') (·.2)
        refine hE.mono (ih (failed <|> some f) hfine) fun found hfound _ => ⟨fun d hd => ?_, fun hnone => ?_⟩
        · obtain ⟨hmem, hgood⟩ := hfound.1 d hd
          exact ⟨List.mem_cons_of_mem c hmem, hgood⟩
        · cases failed <;> cases (hfound.2 hnone).1

/-- The source of an expression between braces passes the check. If there is none, that is not because of the check. -/
theorem bracedSource? (s : Bytes) : E (bracedSource? check s) (SourceFound (fun source _ => Good source) s) := by
  refine hE.mono (hE.firstCompiling hcheck none (by simp) _) fun found hfound => ⟨fun source hsource => ?_, fun hnone => ?_⟩
  · obtain ⟨hmem, hgood⟩ := hfound.1 source hsource
    obtain ⟨hmem, heven⟩ := List.mem_filter.1 hmem
    obtain ⟨u, rest, rfl, hs⟩ := exists_of_mem_beforeClosings (List.mem_reverse.1 hmem)
    exact ⟨rest, hs, heven, hgood⟩
  · rintro source rest rfl
    have hnot := List.filter_eq_nil_iff.1 (hfound.2 hnone).2 source (List.mem_reverse.2 (mem_beforeClosings [] rest))
    simpa using hnot

end Checked

variable {Good : Bytes → Bytes → Prop} {check : Bytes → m Unit}
  (hbraced : ∀ s, E (Expression.bracedSource? check s) (SourceFound Good s))
include hbraced

theorem fragmentsFrom (slashes : Bool) {text : Bytes} (fuel pos : Nat) (literal : Bytes) (start : Nat) {s : Bytes}
    (hfuel : s.length < fuel) :
    E (fragmentsFrom check slashes fuel pos literal start s) fun fs =>
      ∀ raw, ReadingLiteral text raw literal (if literal.isEmpty then pos else start) pos s →
        Covering Good slashes text (if literal.isEmpty then pos else start) fs := by
  induction fuel generalizing pos literal start s with
  | zero => omega
  | succ fuel ih =>
    cases s with
    | nil =>
      refine hE.pure fun raw hreading => ?_
      have hflush : flushLiteral literal start pos [] =
          flushLiteral literal (if literal.isEmpty then pos else start) pos [] := by
        unfold flushLiteral
        split <;> rfl
      have hend : pos = text.length := hreading.length_eq
      rw [hflush]
      exact hreading.covering ⟨hend, by simp, by simp, .nil⟩ (by simp)
    | cons c s =>
      have hlength : s.length < fuel := by simpa using hfuel
      -- A step adds to the literal, or it ends the literal and adds an expression.
      have hplain : ∀ start, (c = Byte.backslash ∨ c = Byte.dollar → s.head? ≠ some Byte.dollar) →
          E (Expression.fragmentsFrom check slashes fuel (pos + 1) (c :: literal) start s) fun fs =>
            (c = Byte.dollar → ¬ BeginsExpression s) →
              ∀ raw, ReadingLiteral text raw literal start pos (c :: s) → Covering Good slashes text start fs :=
        fun start hc => hE.mono (ih (pos + 1) (c :: literal) start hlength) fun fs hfs hbegins raw hreading =>
          hfs _ (hreading.plain hc hbegins)
      have hended : ∀ (f : Fragment) (start n : Nat) (rest : Bytes), f.isExpression = true → f.offset = pos →
          f.stop = pos + n → rest = (c :: s).drop n → 0 < n →
          E (do
            let fs ← Expression.fragmentsFrom check slashes fuel (pos + n) [] (pos + n) rest
            return flushLiteral literal start pos (f :: fs)) fun fs =>
          f.CutFrom Good slashes text → ∀ raw, ReadingLiteral text raw literal start pos (c :: s) →
            Covering Good slashes text start fs := by
        intro f start n rest hexpression hoffset hstop hrest hn
        have hshorter : rest.length < fuel := by
          rw [hrest, List.length_drop, List.length_cons]
          omega
        refine hE.bind (ih (pos + n) [] (pos + n) hshorter) fun fs _ => hE.pure fun hfs hcut raw hreading => ?_
        have hle := hcut.stop_le.2
        rw [hstop] at hle
        have hbegin : ReadingLiteral text [] [] (pos + n) (pos + n) rest := by
          rw [hrest, ← hreading.drop_eq, List.drop_drop]
          exact .begin hle
        have hcovering := hfs [] hbegin
        rw [List.isEmpty_nil, if_pos rfl, ← hstop] at hcovering
        refine hreading.covering (hoffset ▸ .cons hexpression hcut hcovering) fun g hg => ?_
        cases hg
        exact hexpression
      unfold Expression.fragmentsFrom
      dsimp only
      split
      · exact hE.mono (hplain _ (by simp)) fun fs hfs => hfs fun _ => not_beginsExpression_nil
      · next _ d s' =>
        have hlength' : s'.length < fuel := by
          rw [List.length_cons] at hlength
          omega
        split
        · next hescaped =>
          simp only [Bool.and_eq_true, decide_eq_true_eq] at hescaped
          obtain ⟨rfl, rfl⟩ := hescaped
          exact hE.mono (ih (pos + 2) _ _ hlength') fun fs hfs raw hreading => hfs _ hreading.escaped
        next hescaped =>
        split
        · next hdollar =>
          refine hE.mono (hplain _ fun hc hd => ?_) fun fs hfs => hfs fun hc => absurd hc hdollar
          rcases hc with hc | hc
          · simp [hc, Option.some.inj hd] at hescaped
          · exact hdollar hc
        next hdollar =>
        obtain rfl : c = Byte.dollar := by simpa using hdollar
        split
        · next hd =>
          subst hd
          exact hE.mono (ih (pos + 2) _ _ hlength') fun fs hfs raw hreading => hfs _ hreading.doubled
        next hd =>
        have hsingle : ∀ start, _ := fun start => hplain start fun _ h => hd (Option.some.inj h)
        split
        · next hbrace =>
          refine hE.bind (hbraced s') fun found _ => ?_
          split
          · next source _ =>
            refine hE.mono (hended ⟨source, true, pos, pos + source.length + 3⟩ _ (source.length + 3) _ rfl rfl
              rfl rfl (Nat.succ_pos _)) fun fs hfs hfound raw hreading => hfs ?_ raw hreading
            obtain ⟨rest, hrest, heven, hgood⟩ := hfound.1 source rfl
            exact .braced rest (by rw [hreading.drop_eq, hbrace, hrest]) rfl heven hgood
          · refine hE.mono (hsingle _) fun fs hfs hfound => hfs fun _ => ?_
            rw [hbrace]
            exact not_beginsExpression_brace (hfound.2 rfl)
        · next hbrace =>
          split
          · next name hname =>
            refine hE.mono (hended ⟨_, true, pos, pos + name.length + 1⟩ _ (name.length + 1) _ rfl rfl rfl rfl
              (Nat.succ_pos _)) fun fs hfs raw hreading => hfs ?_ raw hreading
            exact .short (d :: s') name hreading.drop_eq hname rfl rfl
          · next hname =>
            exact hE.mono (hsingle _) fun fs hfs => hfs fun _ => not_beginsExpression hname hbrace

theorem fragments (slashes : Bool) (text : Bytes) :
    E (fragments check slashes text) (Covering Good slashes text 0) :=
  hE.mono (hE.fragmentsFrom hbraced slashes _ 0 [] 0 (Nat.lt_succ_self _)) fun _ hfs => hfs [] (.begin (Nat.zero_le _))

end Tracks

section Longest

variable {check : Bytes → Except Failure Unit}

/-- The source passes the check, and no longer one does that is balanced and ends before a closing brace. -/
structure Longest (check : Bytes → Except Failure Unit) (source rest : Bytes) : Prop where
  checked : check source = .ok ()
  longer {more after : Bytes} : rest = more ++ Byte.rightBrace :: after →
    hasEvenBraces (source ++ Byte.rightBrace :: more) = true → check (source ++ Byte.rightBrace :: more) ≠ .ok ()

theorem exists_of_firstCompiling {failed : Option Failure} {candidates : List Bytes} {source : Bytes}
    (h : firstCompiling check failed candidates = .ok (some source)) :
    ∃ before after, candidates = before ++ source :: after ∧ check source = .ok () ∧ ∀ s ∈ before, check s ≠ .ok () := by
  induction candidates generalizing failed with
  | nil => cases failed <;> cases h
  | cons s candidates ih =>
    rw [firstCompiling] at h
    cases hs : check s with
    | ok _ =>
      rw [hs] at h
      cases h
      exact ⟨[], candidates, rfl, hs, List.forall_mem_nil _⟩
    | error f =>
      rw [hs] at h
      obtain ⟨before, after, rfl, hsource, hbefore⟩ := ih h
      exact ⟨s :: before, after, rfl, hsource, List.forall_mem_cons.2 ⟨by rw [hs]; nofun, hbefore⟩⟩

theorem sourceFound_longest {found : Option Bytes} (h : bracedSource? check s = .ok found) :
    SourceFound (Longest check) s found := by
  have htracks : Tracks _ (fun _ => True) _ := tracks_except fun _ _ => trivial
  have hcheck : ∀ s, (∀ a, check s = .ok a → True) ∧ ∀ f, check s = .error f → True :=
    fun _ => ⟨fun _ _ => trivial, fun _ _ => trivial⟩
  have hfound := (htracks.bracedSource? hcheck s).1 found h
  refine ⟨fun source hsource => ?_, hfound.2⟩
  obtain ⟨rest, hs, heven, _⟩ := hfound.1 source hsource
  rw [Option.mem_def.1 hsource] at h
  obtain ⟨before, after, hcandidates, hchecked, hbefore⟩ := exists_of_firstCompiling h
  refine ⟨rest, hs, heven, hchecked, fun {more after'} hrest hmore => hbefore _ ?_⟩
  -- Candidates come longest first, so a longer one comes before.
  have hmem : source ++ Byte.rightBrace :: more ∈ before ++ source :: after := by
    rw [← hcandidates]
    refine List.mem_filter.2 ⟨List.mem_reverse.2 ?_, hmore⟩
    rw [hs, hrest, ← List.cons_append, ← List.append_assoc]
    exact mem_beforeClosings [] after'
  have hsorted : (before ++ source :: after).Pairwise fun source source' => source'.length < source.length := by
    rw [← hcandidates]
    exact (List.pairwise_reverse.2 (pairwise_beforeClosings [] s)).filter _
  have hlonger : ¬ (source ++ Byte.rightBrace :: more).length ≤ source.length := by simp
  rcases List.mem_append.1 hmem with hmem | hmem
  · exact hmem
  · refine absurd ?_ hlonger
    rcases List.mem_cons.1 hmem with heq | hmem
    · rw [heq]
    · exact Nat.le_of_lt (List.rel_of_pairwise_cons (List.pairwise_append.1 hsorted).2.1 hmem)

theorem covering_fragments (h : fragments check slashes text = .ok fs) :
    Covering (Longest check) slashes text 0 fs :=
  have htracks : Tracks _ (fun _ => True) _ := tracks_except fun _ _ => trivial
  (htracks.fragments (fun _ => ⟨fun _ hfound => sourceFound_longest hfound, fun _ _ => trivial⟩) slashes text).1 fs h

end Longest

end PageTemplate.Expression
