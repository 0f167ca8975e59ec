import PageTemplate.Proofs.SingleEvaluation

/-!
What is remembered around a node that caches expressions. It remembers a value for each in turn, and gives back what was
remembered before. If an expression fails on the way, what was remembered for it and for those after it is forgotten,
even by a node around this one. The main statement is `cache_restored`.
-/

namespace PageTemplate

/-- The expressions that a node caches. -/
def Node.cached {ε : Type} : Node ε → List ε
  | .cache exprs _ => exprs
  | _ => []

namespace Render

open Run (Keeps)

variable {frame : Frame} {st st' : State}
variable {exprs : List Compiled} {body : Run Unit}

/-- The expression stands in a list with one that has failed, and not before it. -/
def GivenUp (Listed : List Compiled → Prop) (events : List Event) (x : Nat) : Prop :=
  ∃ before e after f, Listed (before ++ e :: after) ∧ x ∈ (e :: after).map Compiled.id ∧ .evaluated e (.error f) ∈ events

theorem GivenUp.imp {Listed Listed' : List Compiled → Prop} {events events' : List Event} {x : Nat}
    (hlisted : ∀ exprs, Listed exprs → Listed' exprs) (hevents : events ⊆ events') (h : GivenUp Listed events x) :
    GivenUp Listed' events' x := by
  obtain ⟨before, e, after, f, hbefore, hx, hf⟩ := h
  exact ⟨before, e, after, f, hlisted _ hbefore, hx, hevents hf⟩

theorem exists_of_run_cacheValues {s : State}
    {r : Except Failure (List (Option Value) × Option Failure)} (hopen : frame.activation < st.activations.length)
    (honce : (exprs.map Compiled.id).Nodup) (hrun : (cacheValues frame exprs).run st = some (r, s)) :
    ∃ (ps : List (Compiled × Option Value)) (failed : Option Failure) (new : List Event),
      r = .ok (ps.map (·.2), failed) ∧ ps.map (·.1) = exprs ∧ s.activations.length = st.activations.length ∧
      s.events = new ++ st.events ∧
      (∀ x ∉ exprs.map Compiled.id, s.remembered? frame.activation x = st.remembered? frame.activation x) ∧
      ∀ p ∈ ps, p.2 = st.remembered? frame.activation p.1.id ∨ p.2 = none ∧ GivenUp (· = exprs) new p.1.id := by
  induction exprs generalizing st s r with
  | nil =>
    cases hrun
    exact ⟨[], none, [], rfl, rfl, rfl, rfl, fun _ _ => rfl, by simp⟩
  | cons e es ih =>
    obtain ⟨r₁, s₁, v, hfresh, hactivations, _, hevents, hv⟩ := exists_run_evaluateFresh frame e st
    rw [cacheValues, Run.run_bind, Run.run_attempt, hfresh, Option.map_some, Option.bind_some] at hrun
    have hsame : ∀ x, s₁.remembered? frame.activation x = st.remembered? frame.activation x := fun x => by
      rw [State.remembered?, hactivations, State.remembered?]
    cases r₁ with
    | error f =>
      cases hrun
      refine ⟨(e :: es).map (·, none), some f, [.evaluated e v], by rw [List.map_map]; rfl,
        (List.map_map ..).trans (List.map_id _), by rw [hactivations], hevents, fun x _ => hsame x, fun p hp => .inr ?_⟩
      obtain ⟨e', he', rfl⟩ := List.mem_map.1 hp
      cases v with
      | ok _ => cases hv
      | error f' => exact ⟨rfl, [], e, es, f', rfl, List.mem_map.2 ⟨e', he', rfl⟩, List.mem_singleton_self _⟩
    | ok value =>
      obtain ⟨hnew, hrest⟩ := List.nodup_cons.1 honce
      have hlength₁ : (setCached frame e.id (some value) s₁).activations.length = st.activations.length :=
        (length_modifyActivation frame _ s₁).trans (congrArg _ hactivations)
      dsimp only at hrun
      rw [run_activation_bind, Run.run_modify_bind] at hrun
      rcases Run.run_bind_eq_some hrun with ⟨p, s₂, hvalues, hend⟩ | ⟨f, hvalues, _⟩
      · obtain ⟨ps, failed, new, hp, rfl, hlength, hnews, hother, hps⟩ := ih (hlength₁ ▸ hopen) hrest hvalues
        have hcached : ∀ x, x ≠ e.id → (setCached frame e.id (some value) s₁).remembered? frame.activation x =
            st.remembered? frame.activation x := fun x hx => by
          rw [remembered?_setCached, if_neg fun h => hx h.2.2, hsame]
        cases hp
        cases hend
        refine ⟨(e, s₁.remembered? frame.activation e.id) :: ps, failed, new ++ [.evaluated e v], rfl, rfl,
          hlength.trans hlength₁, ?_, ?_, ?_⟩
        · rw [hnews, List.append_assoc]
          exact congrArg _ hevents
        · intro x hx
          rw [List.map_cons, List.mem_cons, not_or] at hx
          rw [hother x hx.2, hcached x hx.1]
        · refine List.forall_mem_cons.2 ⟨.inl (hsame e.id), fun p hp => ?_⟩
          have hne : p.1.id ≠ e.id := fun heq =>
            hnew (heq ▸ List.mem_map.2 ⟨p.1, List.mem_map.2 ⟨p, hp, rfl⟩, rfl⟩)
          rw [← hcached p.1.id hne]
          refine (hps p hp).imp_right fun h => ⟨h.1, ?_⟩
          obtain ⟨before, e', after, f, hlist, hx, hf⟩ := h.2
          exact ⟨e :: before, e', after, f, congrArg _ hlist, hx, List.mem_append_left _ hf⟩
      · -- Caching does not fail itself.
        obtain ⟨_, _, _, hf, _⟩ := ih (hlength₁ ▸ hopen) hrest hvalues
        cases hf

/-- Gives back what was remembered for some expressions. -/
def giveBack (frame : Frame) (ps : List (Compiled × Option Value)) (st : State) : State :=
  ps.foldl (fun st p => setCached frame p.1.id p.2 st) st

section GiveBack

variable {ps : List (Compiled × Option Value)}

@[simp] theorem length_giveBack (st : State) : (giveBack frame ps st).activations.length = st.activations.length := by
  induction ps generalizing st with
  | nil => rfl
  | cons p ps ih => exact (ih _).trans (length_modifyActivation frame _ st)

theorem events_giveBack (st : State) : (giveBack frame ps st).events = st.events := by
  induction ps generalizing st with
  | nil => rfl
  | cons p ps ih => exact ih _

theorem remembered?_giveBack_of_notMem {x : Nat} (hx : x ∉ ps.map (·.1.id)) (a : Nat) (st : State) :
    (giveBack frame ps st).remembered? a x = st.remembered? a x := by
  induction ps generalizing st with
  | nil => rfl
  | cons p ps ih =>
    rw [List.map_cons, List.mem_cons, not_or] at hx
    exact (ih hx.2 _).trans (by rw [remembered?_setCached, if_neg fun h => hx.1 h.2.2])

theorem remembered?_giveBack_of_mem (honce : (ps.map (·.1.id)).Nodup) {p : Compiled × Option Value} (hp : p ∈ ps)
    (hopen : frame.activation < st.activations.length) :
    (giveBack frame ps st).remembered? frame.activation p.1.id = p.2 := by
  induction ps generalizing st with
  | nil => cases hp
  | cons q ps ih =>
    obtain ⟨hnew, hrest⟩ := List.nodup_cons.1 honce
    rcases List.mem_cons.1 hp with rfl | hp
    · refine (remembered?_giveBack_of_notMem hnew _ _).trans ?_
      rw [remembered?_setCached, if_pos ⟨rfl, hopen, rfl⟩]
    · exact ih hrest hp ((length_modifyActivation frame _ st).symm ▸ hopen)

end GiveBack

/-! ### Rendering -/

/-- What an activation remembers is as before, but for what was given up. -/
structure Restores (a : Nat) (Lost : List Event → Nat → Prop) (st st' : State) : Prop where
  length_eq : st'.activations.length = st.activations.length
  entries : ∃ new, st'.events = new ++ st.events ∧
    ∀ x, st'.remembered? a x = st.remembered? a x ∨ st'.remembered? a x = none ∧ Lost new x

def Restored (a : Nat) (Listed : List Compiled → Prop) (st st' : State) : Prop :=
  a < st.activations.length → Restores a (GivenUp Listed) st st'

theorem restores_of_run_cache {Listed : List Compiled → Prop}
    {r : Except Failure Unit} (hopen : frame.activation < st.activations.length)
    (honce : (exprs.map Compiled.id).Nodup) (hbody : Keeps (Restored frame.activation Listed) body)
    (hrun : (renderCache frame exprs body).run st = some (r, st')) :
    Restores frame.activation (fun new x => GivenUp (· = exprs) new x ∨
      x ∉ exprs.map Compiled.id ∧ GivenUp Listed new x) st st' := by
  rcases Run.run_bind_eq_some hrun with ⟨p, s, hvalues, hrun⟩ | ⟨f, hvalues, _⟩
  · obtain ⟨ps, failed, new, hp, rfl, hlength, hnew, hother, hps⟩ := exists_of_run_cacheValues hopen honce hvalues
    cases hp
    obtain ⟨s', hrest, rfl⟩ := Run.run_restoring_eq_some hrun
    have hzip : (ps.map (·.1)).zip (ps.map (·.2)) = ps := (List.zip_of_prod rfl rfl).symm
    rw [hzip]
    have hs' : Restores frame.activation (GivenUp Listed) s s' := by
      cases failed with
      | some f =>
        cases hrest
        exact ⟨rfl, [], rfl, fun _ => .inl rfl⟩
      | none => exact hbody _ _ _ hrest (hlength ▸ hopen)
    obtain ⟨hlength', new', hnew', hentries⟩ := hs'
    rw [List.map_map] at honce
    refine ⟨(length_giveBack s').trans (hlength'.trans hlength), new' ++ new, ?_, fun x => ?_⟩
    · rw [List.append_assoc, ← hnew, ← hnew']
      exact events_giveBack s'
    · change (giveBack frame ps s').remembered? _ x = _ ∨ (giveBack frame ps s').remembered? _ x = none ∧ _
      by_cases hx : x ∈ ps.map (·.1.id)
      · obtain ⟨p, hp, rfl⟩ := List.mem_map.1 hx
        rw [remembered?_giveBack_of_mem honce hp (by rwa [hlength', hlength])]
        refine (hps p hp).imp_right fun h => ⟨h.1, .inl ?_⟩
        exact h.2.imp (fun _ => id) (List.subset_append_right _ _)
      · have hlisted : x ∉ (ps.map (·.1)).map Compiled.id := by rwa [List.map_map]
        rw [remembered?_giveBack_of_notMem hx, ← hother x hlisted]
        refine (hentries x).imp_right fun h => ⟨h.1, .inr ⟨hlisted, ?_⟩⟩
        exact h.2.imp (fun _ => id) (List.subset_append_left _ _)
  · obtain ⟨_, _, _, hf, _⟩ := exists_of_run_cacheValues hopen honce hvalues
    cases hf

namespace Restored

variable {a : Nat} {Listed : List Compiled → Prop}
variable {n : Node Compiled}

theorem of_eq (hactivations : st'.activations = st.activations) (hevents : st'.events = st.events) :
    Restored a Listed st st' := fun _ =>
  ⟨by rw [hactivations], [], hevents, fun _ => .inl (by rw [State.remembered?, hactivations, State.remembered?])⟩

theorem of_modifyActivation (frame : Frame) {f : Activation → Activation}
    (hf : a = frame.activation → ∀ act, (f act).cache = act.cache) (st : State) :
    Restored a Listed st (modifyActivation frame f st) := by
  refine fun _ => ⟨length_modifyActivation frame f st, [], rfl, fun x => .inl ?_⟩
  rw [State.remembered?, State.getD_modifyActivation]
  split
  · next h => rw [hf h.1, State.remembered?]
  · rfl

theorem switchless {E : Frame → Compiled → Prop} : Switchless (Restored a Listed) E where
  refl _ := of_eq rfl rfl
  trans {st₁ st₂ st₃} h h' hopen := by
    obtain ⟨hlength, new, hnew, hentries⟩ := h hopen
    obtain ⟨hlength', new', hnew', hentries'⟩ := h' (hlength ▸ hopen)
    refine ⟨hlength'.trans hlength, new' ++ new, by rw [hnew', hnew, List.append_assoc], fun x => ?_⟩
    rcases hentries' x with heq' | ⟨hnone, hlost⟩
    · rw [heq']
      exact (hentries x).imp_right (And.imp_right (.imp (fun _ => id) (List.subset_append_right _ _)))
    · exact .inr ⟨hnone, hlost.imp (fun _ => id) (List.subset_append_left _ _)⟩
  world _ _ _ := of_eq rfl rfl
  views _ _ _ _ _ := of_eq rfl rfl
  record _ _ _ := of_eq rfl rfl
  out _ _ := of_eq rfl rfl
  named _ _ := of_eq rfl rfl
  noted _ ev := fun _ => ⟨rfl, [ev], rfl, fun _ => .inl rfl⟩
  switches frame _ _ := of_modifyActivation frame fun _ _ => rfl
  openings frame _ _ := of_modifyActivation frame fun _ _ => rfl

/-- In the activation, a node may cache expressions of which each is listed once. -/
def Allowed (a : Nat) (Listed : List Compiled → Prop) (frame : Frame) (n : Node Compiled) : Prop :=
  frame.activation = a → ∀ exprs body, n = .cache exprs body → Listed exprs ∧ (exprs.map Compiled.id).Nodup

theorem renderCache (hallowed : Allowed a Listed frame (.cache exprs n)) (hbody : Keeps (Restored a Listed) body) :
    Keeps (Restored a Listed) (renderCache frame exprs body) := by
  by_cases hframe : frame.activation = a
  · obtain ⟨hlisted, honce⟩ := hallowed hframe exprs n rfl
    subst hframe
    intro st r st' hrun hopen
    obtain ⟨hlength, new, hnew, hentries⟩ := restores_of_run_cache hopen honce hbody hrun
    refine ⟨hlength, new, hnew, fun x => (hentries x).imp_right fun h => ⟨h.1, ?_⟩⟩
    exact h.2.elim (.imp (fun _ heq => heq ▸ hlisted) fun _ => id) (·.2)
  · have hR : Switchless (Restored a Listed) fun frame _ => frame.activation ≠ a := switchless
    exact hR.toElementary.renderCache (fun frame e v st hne => of_modifyActivation frame (fun heq => absurd heq.symm hne) st)
      frame (fun _ _ => hframe) hbody

/-- Rendering gives back what an activation remembers, if the nodes rendered there list no expression twice. -/
theorem handing : Handing (Restored a Listed) (fun st => a < st.activations.length) (Frame.Admits (Allowed a Listed))
    (Allowed a Listed) where
  toTextless := switchless.toTextless
  structural := switchless.toElementary.structural switchless.enclosing fun _ h h' _ => of_eq h h'
  cache _ hallowed hbody := renderCache hallowed hbody
  vars _ _ := of_eq rfl rfl
  ready h hopen := h hopen hopen
  reads _ _ _ _ := trivial
  host _ := .modify fun _ => of_eq rfl rfl
  global _ _ _ _ _ _ _ := .modify fun _ => of_eq rfl rfl
  domain _ hframe := by
    rw [Frame.admits_iff] at hframe ⊢
    exact hframe
  allowedDomain _ hn := hn
  slots hframe := Frame.admits_iff.1 hframe
  body bound _ hopen _ hslots := ⟨Frame.admits_iff.2 hslots, fun _ _ heq => absurd heq (Nat.ne_of_gt hopen)⟩
  within {st st₁} program h hopen := by
    obtain ⟨hlength, new, hnew, hentries⟩ :=
      h (by simp only [bodyStart, List.length_append, List.length_singleton]; omega)
    simp only [bodyStart, List.length_append, List.length_singleton] at hlength
    refine ⟨by simp [hlength], new, hnew, fun x => ?_⟩
    rw [remembered?_take hopen, ← remembered?_bodyStart hopen program]
    exact hentries x

theorem node {depth opened : Nat} (hframe : frame.FitsIn opened)
    (hn : n.Every (Allowed frame.activation Listed frame)) :
    Keeps (Restored frame.activation Listed) (node (toDepth depth) frame n) :=
  handing.node (fun hframe hn => handing.toDepth depth hframe hn)
    (hframe.admits (Nat.le_refl _) fun hne heq => absurd heq hne) hn

end Restored

/-- A node that caches expressions leaves behind what was remembered before it, however such nodes are nested in it and
whatever fails, as long as none lists an expression twice. Only what was remembered for an expression that failed when
it was to be cached, or for one listed after it, is gone. -/
theorem cache_restored {depth : Nat} {frame : Frame} {exprs : List Compiled} {body : Node Compiled} {st st' : State}
    {r : Except Failure Unit} (hframe : frame.Arises st.activations.length)
    (honce : (Node.cache exprs body).Every fun n => (n.cached.map Compiled.id).Nodup)
    (hrun : (node (toDepth depth) frame (.cache exprs body)).run st = some (r, st')) :
    ∃ new, st'.events = new ++ st.events ∧ ∀ x,
      st'.remembered? frame.activation x = st.remembered? frame.activation x ∨
      st'.remembered? frame.activation x = none ∧
        (GivenUp (· = exprs) new x ∨
          x ∉ exprs.map Compiled.id ∧ GivenUp (fun inner => ∃ n ∈ body.all, n.cached = inner) new x) := by
  have hbody : Keeps (Restored frame.activation fun inner => ∃ n ∈ body.all, n.cached = inner)
      (node (toDepth depth) frame body) := by
    refine Restored.node hframe.fitsIn fun n hn _ inner m heq => ?_
    subst heq
    exact ⟨⟨_, hn, rfl⟩, honce _ (List.mem_cons_of_mem _ hn)⟩
  rw [node] at hrun
  exact (restores_of_run_cache hframe.fitsIn.activation_lt (honce _ List.mem_cons_self) hbody hrun).entries

def Event.isFailure : Event → Bool
  | .evaluated _ (.error _) => true
  | _ => false

theorem cache_restored_nested :
    let one : Compiled := ⟨0, .constant (.ofInt 1), default⟩
    let two : Compiled := ⟨1, .constant (.ofInt 2), default⟩
    let frame := bodyFrame 0 0 [] { world := {} }
    let st := setCached frame 0 (some (.ofInt 7)) (bodyStart 0 { world := {} })
    ∃ st', (node (toDepth 0) frame (.cache [one, two] (.cache [two, one] (.content one false false)))).run st =
        some (.ok (), st') ∧
      st'.remembered? frame.activation 0 = some (.ofInt 7) ∧ st'.remembered? frame.activation 1 = none := by
  intro one two frame st
  have hcomputed : ((node (toDepth 0) frame (.cache [one, two] (.cache [two, one] (.content one false false)))).run st).map
      (fun q => (q.1.toOption.isSome, q.2.events.any Event.isFailure)) = some (true, false) := by decide +kernel
  obtain ⟨⟨result, st'⟩, hrun, hresult⟩ := Option.map_eq_some_iff.1 hcomputed
  obtain ⟨hok, hfailures⟩ := Prod.mk.inj hresult
  have hframe : frame.Arises st.activations.length := .entered 0 0 { world := {} }
  obtain ⟨new, hnew, hentries⟩ :=
    cache_restored hframe (List.forall_mem_cons.2 ⟨by decide, by simp [Node.all, Node.cached]⟩) hrun
  have hkept : ∀ Listed x, ¬ GivenUp Listed new x := by
    rintro Listed x ⟨_, e, _, f, _, _, hf⟩
    rw [hnew, List.any_eq_false] at hfailures
    exact hfailures _ (List.mem_append_left _ hf) rfl
  have hsame : ∀ x, st'.remembered? frame.activation x = st.remembered? frame.activation x := fun x =>
    (hentries x).resolve_right fun h => h.2.elim (hkept _ x) fun h => hkept _ x h.2
  cases result with
  | error f => cases hok
  | ok _ => exact ⟨st', hrun, hsame 0, hsame 1⟩

/-- A remembered value is forgotten if an expression before it fails, and one listed twice stays. -/
theorem cache_not_restored :
    let one : Compiled := ⟨0, .constant (.ofInt 1), default⟩
    let missing : Compiled := ⟨1, .path (utf8 "missing") [], default⟩
    let frame := bodyFrame 0 0 [] { world := {} }
    let st := bodyStart 0 { world := {} }
    let remembers (st : State) : Bool := (st.remembered? frame.activation 0).isSome
    let after (exprs : List Compiled) (st : State) : Option Bool :=
      ((node (toDepth 0) frame (.cache exprs .absent)).run st).map (remembers ·.2)
    remembers (setCached frame 0 (some (.ofInt 7)) st) = true ∧
      after [missing, one] (setCached frame 0 (some (.ofInt 7)) st) = some false ∧
      remembers st = false ∧ after [one, one] st = some true := by decide +kernel

end Render

end PageTemplate
