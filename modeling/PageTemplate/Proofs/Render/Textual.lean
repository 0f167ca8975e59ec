import PageTemplate.Proofs.Placeholder
import PageTemplate.Proofs.Render.Closure
import PageTemplate.Proofs.Render.Construct

/-!
Rendering with one output and message or another. Only texts, messages and handlers look at these; all other steps are
`Wordless`. Whatever is rendered is `Transparent`: it does the same from any output, with a message open or not, but for
placeholders in the message in the place of named blocks, and both texts are made of the same pieces.
-/

namespace PageTemplate

namespace Output

variable (o : Output)

/-- The output with all that was written to another added. -/
def followedBy (o written : Output) : Output := ⟨written.fragments ++ o.fragments⟩

theorem followedBy_assoc (p q : Output) : (o.followedBy p).followedBy q = o.followedBy (p.followedBy q) := by
  simp [followedBy]

theorem empty_followedBy : followedBy {} o = o := by simp [followedBy]

theorem append_eq_followedBy (s : Bytes) :
    o.append s = o.followedBy (Output.append {} s) := by
  unfold append followedBy
  split <;> rfl

@[simp] theorem text_followedBy (written : Output) : (o.followedBy written).text = o.text ++ written.text := by
  simp [text, followedBy]

@[simp] theorem truncate_followedBy (written : Output) : (o.followedBy written).truncate o.mark = o := by
  have hlength : (written.fragments ++ o.fragments).length - o.fragments.length
      = written.fragments.length := by
    simp
  simp only [truncate, followedBy, mark, hlength, List.drop_left]

end Output

namespace Render

open Run

variable {α β : Type}

def State.withOutput (st : State) (o : Output) : State := { st with out := o }

/-- The state with another output and another open message. -/
def State.withText (st : State) (o : Output) (named : Option (Assoc Bytes)) : State := { st with out := o, named }

/-- The run ends, and has nothing to do with the output and the open message. -/
def Wordless (act : Run α) : Prop :=
  ∀ st : State, ∃ (r : Except Failure α) (st' : State), ∀ o m, act.run (st.withText o m) = some (r, st'.withText o m)

namespace Wordless

theorem out_eq {act : Run α} (h : Wordless act) {st st' : State} {r : Except Failure α}
    (hrun : act.run st = some (r, st')) : st'.out = st.out := by
  obtain ⟨r₁, st₁, hall⟩ := h st
  have hsame : act.run st = some (r₁, st₁.withText st.out st.named) := hall st.out st.named
  rw [hrun] at hsame
  cases hsame
  rfl

variable (frame : Frame)

theorem pure (a : α) : Wordless (Pure.pure a) := fun st => ⟨.ok a, st, fun _ _ => rfl⟩

theorem throw (f : Failure) : Wordless (MonadExcept.throw f : Run α) := fun st => ⟨.error f, st, fun _ _ => rfl⟩

theorem lifted (r : Except Failure α) : Wordless (liftExcept r : Run α) := by
  cases r with
  | ok a => exact pure a
  | error f => exact throw f

theorem modifyGet {g : State → α × State}
    (hg : ∀ st o m, g (st.withText o m) = ((g st).1, (g st).2.withText o m)) :
    Wordless (modifyGet g : Run α) := by
  refine fun st => ⟨.ok (g st).1, (g st).2, fun o m => ?_⟩
  change some (Except.ok (g (st.withText o m)).1, (g (st.withText o m)).2) = _
  rw [hg]

theorem modify {g : State → State} (hg : ∀ st o m, g (st.withText o m) = (g st).withText o m) :
    Wordless (modify g : Run Unit) :=
  modifyGet fun st o m => congrArg ((), ·) (hg st o m)

theorem bind {x : Run α} {f : α → Run β} (hx : Wordless x) (hf : ∀ a, Wordless (f a)) : Wordless (x >>= f) := by
  intro st
  obtain ⟨r, st₁, hrun⟩ := hx st
  cases r with
  | error e =>
    refine ⟨.error e, st₁, fun o m => ?_⟩
    rw [run_bind, hrun]
    rfl
  | ok a =>
    obtain ⟨r, st₂, hrest⟩ := hf a st₁
    refine ⟨r, st₂, fun o m => ?_⟩
    rw [run_bind, hrun]
    exact hrest o m

theorem look {f : State → Run α} (hf : ∀ st, Wordless (f st)) (hsame : ∀ st o m, f (st.withText o m) = f st) :
    Wordless (get >>= f) := by
  intro st
  obtain ⟨r, st', hrun⟩ := hf st st
  refine ⟨r, st', fun o m => ?_⟩
  rw [run_get_bind, hsame, hrun]

theorem attempt {x : Run α} (hx : Wordless x) : Wordless (Run.attempt x) := by
  intro st
  obtain ⟨r, st', hrun⟩ := hx st
  refine ⟨.ok r, st', fun o m => ?_⟩
  rw [run_attempt, hrun]
  rfl

theorem failAt (e : Compiled) (f : Failure) : Wordless (failAt e f : Run α) := by
  have hrecord : Wordless (MonadStateOf.modifyGet fun st : State =>
      ((), { st with remote := st.remote.record e.site (some f) }) : Run Unit) := modify fun _ _ _ => rfl
  unfold Render.failAt
  split
  · exact bind (throw f) fun _ => bind hrecord fun _ => throw _
  · exact bind hrecord fun _ => throw _

theorem note (event : Event) : Wordless (note event) := modify fun _ _ _ => rfl

theorem evaluateFresh (e : Compiled) : Wordless (evaluateFresh frame e) := by
  intro st
  cases heval : (e.evaluator.eval st.vars).run st.world with
  | mk r w =>
    let evaluated : State := { st with
      world := w
      events := .evaluated e r :: st.events
      views := ⟨frame, e, st.vars, st.assigned, st.world⟩ :: st.views }
    cases r with
    | ok v =>
      refine ⟨.ok v, evaluated, fun o m => ?_⟩
      rw [Render.evaluateFresh, run_get_bind]
      simp only [State.withText, heval]
      rfl
    | error f =>
      have hwordless : Wordless (Render.failAt e f : Run Value) := failAt e f
      obtain ⟨r, st', hfail⟩ := hwordless evaluated
      refine ⟨r, st', fun o m => ?_⟩
      rw [Render.evaluateFresh, run_get_bind]
      simp only [State.withText, heval]
      exact hfail o m

theorem activation : Wordless (activation frame) := look (fun _ => pure _) fun _ _ _ => rfl

theorem evaluate (e : Compiled) : Wordless (evaluate frame e) := by
  refine bind (activation frame) fun a => ?_
  split
  · exact bind (note _) fun _ => pure _
  · exact evaluateFresh frame e

theorem isChosen (opening : Nat) (value : Value) (e : Option Compiled) :
    Wordless (isChosen frame opening value e) := by
  cases e with
  | none => exact pure _
  | some e =>
    refine bind (note _) fun _ => bind (evaluate frame e) fun v => bind (note _) fun _ => ?_
    unfold Render.agreesWith
    split
    · exact pure _
    · exact bind (modify fun _ _ _ => rfl) fun _ => pure _

theorem translate (msgid : Bytes) (mapping : Assoc Bytes) (fallback : Bytes) :
    Wordless (translate frame msgid mapping fallback) := by
  have hlanguage : Wordless (targetLanguage frame) := by
    refine look (fun st => ?_) fun _ _ _ => rfl
    split <;> exact pure _
  exact bind hlanguage fun language => modifyGet fun _ _ _ => rfl

theorem cacheValues (es : List Compiled) : Wordless (cacheValues frame es) := by
  induction es with
  | nil => exact pure _
  | cons e es ih =>
    refine bind (evaluateFresh frame e).attempt fun r => ?_
    cases r with
    | error f => exact pure _
    | ok v =>
      exact bind (activation frame) fun _ => bind (modify fun _ _ _ => rfl) fun _ => bind ih fun _ => pure _

theorem advance (loop : Nat) : Wordless (advance loop) := modifyGet fun _ _ _ => rfl

theorem loopTable : Wordless loopTable := by
  intro st
  by_cases htable : ∃ id, st.vars.get? Expression.loopsName = some (.loops id)
  · obtain ⟨id, htable⟩ := htable
    refine ⟨.ok id, st, fun o m => ?_⟩
    rw [Render.loopTable, run_get_bind]
    simp only [State.withText, htable]
    rfl
  · refine ⟨.ok st.world.heap.newTable.1, { st with
      world := { st.world with heap := st.world.heap.newTable.2 }
      vars := st.vars.insert Expression.loopsName (.loops st.world.heap.newTable.1) }, fun o m => ?_⟩
    rw [Render.loopTable, run_get_bind]
    simp only [State.withText]
    split
    · next id hid => exact absurd ⟨id, hid⟩ htable
    · rfl

end Wordless

/-! ### A run within a message and without one -/

/-- The pieces of two texts, the one without placeholders and the one with them, where each block is a rendered part. -/
structure Told (pieces : List Piece) (plain shown : Output) (parts : List (Bytes × Bytes)) : Prop where
  plain_eq : plain.text = pieces.flatMap Piece.plain
  shown_eq : shown.text = pieces.flatMap Piece.shown
  blocks : (pieces.filterMap Piece.block?).Sublist parts

namespace Told

theorem nil (parts : List (Bytes × Bytes)) : Told [] {} {} parts := ⟨rfl, rfl, List.nil_sublist _⟩

theorem literal (o : Output) : Told [.literal o.text] o o [] :=
  ⟨(List.append_nil _).symm, (List.append_nil _).symm, List.Sublist.slnil⟩

theorem append {pieces pieces' : List Piece} {plain shown plain' shown' : Output} {parts parts' : List (Bytes × Bytes)}
    (h : Told pieces plain shown parts) (h' : Told pieces' plain' shown' parts') :
    Told (pieces ++ pieces') (plain.followedBy plain') (shown.followedBy shown') (parts ++ parts') := by
  refine ⟨?_, ?_, ?_⟩
  · simp [h.plain_eq, h'.plain_eq, List.flatMap_append]
  · simp [h.shown_eq, h'.shown_eq, List.flatMap_append]
  · rw [List.filterMap_append]
    exact h.blocks.append h'.blocks

end Told

/-- What a run comes to with a message open or not: what it writes in both cases, and the parts the message gets. -/
structure Ending (α : Type) where
  result : Except Failure α
  state : State
  plain : Output
  shown : Output
  parts : List (Bytes × Bytes)

/-- The run ends in this way from a state, and if it succeeds, both texts are made of the same pieces. -/
structure EndsIn (act : Run α) (st : State) (e : Ending α) : Prop where
  plain (o : Output) :
    act.run (st.withText o none) = some (e.result, e.state.withText (o.followedBy e.plain) none)
  shown (o : Output) (m : Assoc Bytes) :
    act.run (st.withText o (some m)) =
      some (e.result, e.state.withText (o.followedBy e.shown) (some (m.insertAll e.parts)))
  told {a : α} : e.result = .ok a → ∃ pieces, Told pieces e.plain e.shown e.parts

/-- The run exceeds the depth of calls or ends, and how has nothing to do with output and message. -/
def Transparent (act : Run α) : Prop :=
  ∀ st : State, (∀ o m, act.run (st.withText o m) = none) ∨ ∃ e, EndsIn act st e

namespace Transparent

theorem of_wordless {act : Run α} (hact : Wordless act) : Transparent act := by
  intro st
  obtain ⟨r, st', hrun⟩ := hact st
  exact .inr ⟨⟨r, st', {}, {}, []⟩, fun o => hrun o none, fun o m => hrun o (some m), fun _ => ⟨[], .nil []⟩⟩

theorem write (s : Bytes) : Transparent (write s) := by
  intro st
  refine .inr ⟨⟨.ok (), st, Output.append {} s, Output.append {} s, []⟩, fun o => ?_, fun o m => ?_, fun _ =>
    ⟨_, .literal _⟩⟩
  · rw [← Output.append_eq_followedBy]
    rfl
  · rw [← Output.append_eq_followedBy]
    rfl

@[simp] theorem insertAll_append (m : Assoc Bytes) (parts parts' : List (Bytes × Bytes)) :
    (m.insertAll parts).insertAll parts' = m.insertAll (parts ++ parts') := by
  simp [Assoc.insertAll]

theorem bind {x : Run α} {f : α → Run β} (hx : Transparent x) (hf : ∀ a, Transparent (f a)) :
    Transparent (x >>= f) := by
  intro st
  rcases hx st with hnone | ⟨⟨r, st₁, plain, shown, parts⟩, hplain, hshown, htold⟩
  · left
    intro o m
    rw [run_bind, hnone]
    rfl
  cases r with
  | error f =>
    refine .inr ⟨⟨.error f, st₁, plain, shown, parts⟩, fun o => ?_, fun o m => ?_, fun h => by cases h⟩
    · rw [run_bind, hplain]
      rfl
    · rw [run_bind, hshown]
      rfl
  | ok a =>
    rcases hf a st₁ with hnone | ⟨e, hrest⟩
    · left
      intro o m
      cases m with
      | none =>
        rw [run_bind, hplain]
        exact hnone _ _
      | some m =>
        rw [run_bind, hshown]
        exact hnone _ _
    · refine .inr ⟨⟨e.result, e.state, plain.followedBy e.plain, shown.followedBy e.shown, parts ++ e.parts⟩,
        fun o => ?_, fun o m => ?_, fun h => ?_⟩
      · rw [run_bind, hplain, ← Output.followedBy_assoc]
        exact hrest.plain _
      · rw [run_bind, hshown, ← Output.followedBy_assoc, ← insertAll_append]
        exact hrest.shown _ _
      · obtain ⟨pieces, hpieces⟩ := htold rfl
        obtain ⟨pieces', hpieces'⟩ := hrest.told h
        exact ⟨pieces ++ pieces', hpieces.append hpieces'⟩

theorem look {f : State → Run α} (hf : ∀ st, Transparent (f st)) (hsame : ∀ st o m, f (st.withText o m) = f st) :
    Transparent (get >>= f) := by
  intro st
  have hrun : ∀ o m, (get >>= f).run (st.withText o m) = (f st).run (st.withText o m) := by
    intro o m
    rw [run_get_bind, hsame]
  rcases hf st st with hnone | ⟨e, hplain, hshown, htold⟩
  · exact .inl fun o m => (hrun o m).trans (hnone o m)
  · exact .inr ⟨e, fun o => (hrun o none).trans (hplain o), fun o m => (hrun o (some m)).trans (hshown o m), htold⟩

/-- A construct may change what has nothing to do with texts around its body, or close the message during it. -/
theorem around {act : Run Unit} (kept : Bool) (body : State → Run Unit) (enter : State → State)
    (leave : State → State → State)
    (hrun : ∀ st, act.run st = ((body st).run (enter st)).map fun p => (p.1, leave st p.2))
    (hsame : ∀ st o m, body (st.withText o m) = body st)
    (henter : ∀ st o m, enter (st.withText o m) = (enter st).withText o (bif kept then m else none))
    (hleave : ∀ st st' o m o' m', leave (st.withText o m) (st'.withText o' m') =
      (leave st st').withText o' (bif kept then m' else m)) (hbody : ∀ st, Transparent (body st)) :
    Transparent act := by
  intro st
  rcases hbody st (enter st) with hnone | ⟨e, hplain, hshown, htold⟩
  · left
    intro o m
    rw [hrun, hsame, henter, hnone]
    rfl
  · cases kept with
    | true =>
      refine .inr ⟨{ e with state := leave st e.state }, fun o => ?_, fun o m => ?_, htold⟩
      · rw [hrun, hsame, henter, cond_true, hplain, Option.map_some, hleave, cond_true]
      · rw [hrun, hsame, henter, cond_true, hshown, Option.map_some, hleave, cond_true]
    | false =>
      have hend : ∀ o m, act.run (st.withText o m) =
          some (e.result, (leave st e.state).withText (o.followedBy e.plain) m) := by
        intro o m
        rw [hrun, hsame, henter, cond_false, hplain, Option.map_some, hleave, cond_false]
      exact .inr ⟨⟨e.result, leave st e.state, e.plain, e.plain, []⟩, fun o => hend o none, fun o m => hend o (some m),
        fun _ => ⟨_, .literal e.plain⟩⟩

theorem capture (named : Option (Assoc Bytes)) (body : Run Unit) : Transparent (capture named body) := by
  intro st
  have hrun : ∀ o m, (Render.capture named body).run (st.withText o m) =
      (body.run (st.withText {} named)).map fun p =>
        (p.1.map fun _ => (p.2.out.text, p.2.named), p.2.withText o m) :=
    fun o m => run_capture named body (st.withText o m)
  cases hbody : body.run (st.withText {} named) with
  | none =>
    left
    intro o m
    rw [hrun, hbody]
    rfl
  | some p =>
    refine .inr ⟨⟨p.1.map fun _ => (p.2.out.text, p.2.named), p.2, {}, {}, []⟩, fun o => ?_, fun o m => ?_,
      fun _ => ⟨[], .nil []⟩⟩
    · rw [hrun, hbody]
      rfl
    · rw [hrun, hbody]
      rfl

theorem run_renderName_some (name : Bytes) (body : Run Unit) (st : State) (o : Output) (m : Assoc Bytes) :
    (Render.renderName name body).run (st.withText o (some m)) =
      (do
        let (text, _) ← Render.capture none body
        modify fun st => { st with named := some (m.insert name text) }
        Render.write (placeholder name) : Run Unit).run (st.withText o (some m)) := rfl

theorem renderName (name : Bytes) {body : Run Unit} (hbody : Transparent body) :
    Transparent (renderName name body) := by
  intro st
  have hplain : ∀ o, (Render.renderName name body).run (st.withText o none) = body.run (st.withText o none) :=
    fun _ => rfl
  have hcapture : ∀ o m, (Render.capture none body).run (st.withText o m) =
      (body.run (st.withText {} none)).map fun p =>
        (p.1.map fun _ => (p.2.out.text, p.2.named), p.2.withText o m) :=
    fun o m => run_capture none body (st.withText o m)
  rcases hbody st with hnone | ⟨⟨r, st', plain, shown, parts⟩, hend, _, _⟩
  · left
    intro o m
    cases m with
    | none => rw [hplain, hnone]
    | some m =>
      rw [run_renderName_some, run_bind, hcapture, hnone]
      rfl
  cases r with
  | error f =>
    refine .inr ⟨⟨.error f, st', plain, {}, []⟩, fun o => ?_, fun o m => ?_, fun h => by cases h⟩
    · rw [hplain, hend]
    · rw [run_renderName_some, run_bind, hcapture, hend]
      rfl
  | ok u =>
    let text := Output.append {} (placeholder name)
    refine .inr ⟨⟨.ok u, st', plain, text, [(name, plain.text)]⟩, fun o => ?_, fun o m => ?_,
      fun _ => ⟨[.block name plain.text], ?_⟩⟩
    · rw [hplain, hend]
    · rw [run_renderName_some, run_bind, hcapture, hend, ← Output.append_eq_followedBy, Output.empty_followedBy]
      rfl
    · refine ⟨(List.append_nil _).symm, ?_, List.Sublist.refl _⟩
      simp [text, Piece.shown]
      rfl

/-- A handler cuts back what was written, but what has become part of the message stays. -/
theorem renderOnError {body fallback : Run Unit} (hbody : Transparent body)
    (hfallback : ∀ v, Transparent (Render.binding (utf8 "error") v fallback)) :
    Transparent (renderOnError body fallback) := by
  intro st
  rcases hbody st with hnone | ⟨⟨r, st₁, plain, shown, parts⟩, hplain, hshown, htold⟩
  · left
    intro o m
    rw [run_renderOnError, hnone]
    rfl
  cases r with
  | ok u =>
    refine .inr ⟨⟨.ok u, st₁, plain, shown, parts⟩, fun o => ?_, fun o m => ?_, htold⟩
    · rw [run_renderOnError, hplain]
      rfl
    · rw [run_renderOnError, hshown]
      rfl
  | error f =>
    have hstart : ∀ o written m m', handlerStart (st.withText o m) (st₁.withText (o.followedBy written) m') =
        (handlerStart st st₁).withText o m' := by
      intro o written m m'
      simp only [handlerStart, State.withText, Output.truncate_followedBy]
    have hplainRun : ∀ o, (Render.renderOnError body fallback).run (st.withText o none) =
        (Render.binding (utf8 "error") (.failure (unlocated f)) fallback).run
          ((handlerStart st st₁).withText o none) := by
      intro o
      rw [run_renderOnError, hplain, ← hstart o plain none none]
      rfl
    have hshownRun : ∀ o m, (Render.renderOnError body fallback).run (st.withText o (some m)) =
        (Render.binding (utf8 "error") (.failure (unlocated f)) fallback).run
          ((handlerStart st st₁).withText o (some (m.insertAll parts))) := by
      intro o m
      rw [run_renderOnError, hshown, ← hstart o shown (some m) (some (m.insertAll parts))]
      rfl
    rcases hfallback (.failure (unlocated f)) (handlerStart st st₁) with hnone | ⟨e, hplain', hshown', htold'⟩
    · left
      intro o m
      cases m with
      | none => rw [hplainRun, hnone]
      | some m => rw [hshownRun, hnone]
    · refine .inr ⟨{ e with parts := parts ++ e.parts }, fun o => ?_, fun o m => ?_, fun h => ?_⟩
      · rw [hplainRun, hplain']
      · rw [hshownRun, hshown', insertAll_append]
      · obtain ⟨pieces, hpieces⟩ := htold' h
        exact ⟨pieces, hpieces.plain_eq, hpieces.shown_eq,
          hpieces.blocks.trans (List.sublist_append_right parts e.parts)⟩

variable {body : Run Unit}

theorem restoring {restore : State → State}
    (hrestore : ∀ st o m, restore (st.withText o m) = (restore st).withText o m) (hbody : Transparent body) :
    Transparent (Run.restoring restore body) :=
  around true (fun _ => body) id (fun _ => restore) (run_restoring restore body) (fun _ _ _ => rfl)
    (fun _ _ _ => rfl) (fun _ st' _ _ o' m' => hrestore st' o' m') fun _ => hbody

theorem binding (name : Bytes) (v : Value) (hbody : Transparent body) :
    Transparent (binding name v body) :=
  around true (fun _ => body) (fun st => { st with vars := st.vars.insert name v })
    (fun st st' => { st' with vars := st'.vars.set? name (st.vars.get? name) }) (run_binding name v body)
    (fun _ _ _ => rfl) (fun _ _ _ => rfl) (fun _ _ _ _ _ _ => rfl) fun _ => hbody

theorem renderCache (frame : Frame) (exprs : List Compiled) (hbody : Transparent body) :
    Transparent (renderCache frame exprs body) := by
  refine bind (of_wordless (.cacheValues frame exprs)) fun p => ?_
  obtain ⟨previous, failed⟩ := p
  refine restoring (fun st o m => ?_) ?_
  · generalize exprs.zip previous = ps
    induction ps generalizing st with
    | nil => rfl
    | cons p ps ih => exact ih (setCached frame p.1.id p.2 st)
  · cases failed with
    | some f => exact of_wordless (.throw f)
    | none => exact hbody

theorem compositional : Compositional fun _ _ act => Transparent act where
  pure a := of_wordless (.pure a)
  bind := bind
  look := look
  write := write
  evaluated _ hf := bind (of_wordless (.evaluateFresh _ _)) hf
  noted _ hact := bind (of_wordless (.note _)) fun _ => hact
  misused _ _ := of_wordless (.failAt _ _)
  translate frame msgid mapping fallback := of_wordless (.translate frame msgid mapping fallback)

theorem switching : Switching fun _ _ act => Transparent act where
  toCompositional := compositional
  note _ := of_wordless (.note _)
  compared _ _ := of_wordless (.modify fun _ _ _ => rfl)
  switch _ _ _ := of_wordless (.modify fun _ _ _ => rfl)
  register _ _ _ _ := of_wordless (.modify fun _ _ _ => rfl)
  restoringRegister _ _ _ _ _ hbody := restoring (fun _ _ _ => rfl) hbody

theorem looping : Looping fun _ _ act => Transparent act where
  toCompositional := compositional
  advance loop _ := of_wordless (.advance loop)
  heap _ := of_wordless (.modify fun _ _ _ => rfl)
  loopTable := of_wordless .loopTable
  restoringHeap _ _ hbody := restoring (fun _ _ _ => rfl) hbody

theorem cooked (id : Nat) {f : World → Nat → Run Unit} (hf : ∀ w program, Transparent (f w program)) :
    Transparent (do
      let st ← get
      let (r, world) := st.world.cook id
      set { st with world }
      let program ← liftExcept r
      f world program) := by
  have hcook : Wordless (modifyGet fun st => (st.world.cook id, { st with world := (st.world.cook id).2 }) :
      Run (Except Failure Nat × World)) := .modifyGet fun _ _ _ => rfl
  have hall := bind (of_wordless hcook) fun p => bind (of_wordless (.lifted p.1)) (hf p.2)
  exact hall

theorem pervasive : Pervasive fun _ _ act => Transparent act where
  toCompositional := compositional
  binding name v _ hbody _ := binding name v (hbody [])
  loop frame names _ whitespace _ he hbody :=
    looping.renderLoop frame he whitespace fun values =>
      always_bindingAll (names.zip values) (fun b _ _ hbody _ => binding b.1 b.2 (hbody [])) hbody
  cache frame exprs _ _ hbody _ := renderCache frame exprs (hbody [])
  capture named _ _ _ := capture named _
  name name _ hbody _ := renderName name (hbody [])
  onError hbody hfallback _ := renderOnError (hbody []) fun v => binding _ v (hfallback [])
  switch frame id _ _ he hbody := switching.renderSwitch hbody frame id he
  case frame id _ _ he hbody := switching.renderCase hbody frame id he
  exceeded _ _ := .inl fun _ _ => rfl
  missing _ _ := of_wordless (.throw _)
  global _ _ _ := of_wordless (.modify fun _ _ _ => rfl)
  fill hcall fill _ :=
    around false (fun _ => _) (fun st => { st with named := none })
      (fun st st' => { st' with vars := st.vars, named := st.named }) (run_renderFill _ fill)
      (fun _ _ _ => rfl) (fun _ _ _ => rfl) (fun _ _ _ _ _ _ => rfl) fun _ => hcall fill.2 fill.1 []
  body hcall program bound body slots _ :=
    around false (fun st => _) (bodyStart program)
      (fun st st' => { st' with
        named := st.named
        activations := st'.activations.take st.activations.length })
      (run_renderBody _ program bound body slots) (fun _ _ _ => rfl) (fun _ _ _ => rfl) (fun _ _ _ _ _ _ => rfl)
      fun st => hcall (bodyFrame program bound slots st) body []
  cooked id _ hf := cooked id hf
  merging hbody _ :=
    around true (fun _ => _) id (fun st st' => { st' with vars := st'.remote.mergeInto st.vars })
      (fun st => by rw [run_get_bind, run_restoring]; rfl)
      (fun _ _ _ => rfl) (fun _ _ _ => rfl) (fun _ _ _ _ _ _ => rfl) fun _ => hbody []

variable {act : Run α}

theorem exists_ending (hact : Transparent act) {st st' : State} {r : Except Failure α} (hrun : act.run st = some (r, st')) :
    ∃ written parts, st'.out = st.out.followedBy written ∧ st'.named = st.named.map (·.insertAll parts) ∧
      ∀ before, act.run (st.withOutput before) = some (r, st'.withOutput (before.followedBy written)) := by
  rcases hact st with hnone | ⟨e, hplain, hshown, _⟩
  · have hend : act.run st = none := hnone st.out st.named
    rw [hend] at hrun
    cases hrun
  · have hends : ∃ written, ∀ o, act.run (st.withText o st.named) =
        some (e.result, e.state.withText (o.followedBy written) (st.named.map (·.insertAll e.parts))) := by
      cases st.named with
      | none => exact ⟨e.plain, hplain⟩
      | some m => exact ⟨e.shown, fun o => hshown o m⟩
    obtain ⟨written, hends⟩ := hends
    have hst : act.run st = _ := hends st.out
    rw [hst] at hrun
    cases hrun
    exact ⟨written, e.parts, rfl, rfl, hends⟩

end Transparent

end Render

end PageTemplate
