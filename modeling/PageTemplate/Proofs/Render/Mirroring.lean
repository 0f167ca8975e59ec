import PageTemplate.Proofs.Pairing
import PageTemplate.Proofs.Render.Effect

/-!
Two renderings side by side. A `Company` says which states go together, and `Mirrors` that the second run goes where the
first one goes: to the same result, but for the sites of failures, and to states that go together again. What the first
run must not do is said by a `Watch`. There is a rule for each construct, for nodes with different expressions and frames
with different fills, so that a development has to say no more than what the activations remember and what the programs
have to do with each other.
-/

namespace PageTemplate

variable {name : Bytes} {S : Site → Site → Prop}

/-- The failures are the same but for the sites they are located at. -/
inductive Failure.Alike (S : Site → Site → Prop) : Failure → Failure → Prop where
  | refl (f : Failure) : Alike S f f
  | located {site site' : Site} (cause : Failure) : S site site' → Alike S (.located site cause) (.located site' cause)

namespace Remote

variable {remote remote' : Remote}

/-- The recorded failures are the same but for their sites. -/
abbrev RecordsAlike (S : Site → Site → Prop) : List (Site × Option Failure) → List (Site × Option Failure) → Prop :=
  List.Forall₂ fun p p' => S p.1 p'.1 ∧ p'.2 = p.2

/-- The entries are the same but for the sites of recorded failures. -/
inductive EntryAlike (S : Site → Site → Prop) : Bytes × Value → Bytes × Value → Prop where
  | refl (e : Bytes × Value) : EntryAlike S e e
  | failures {fs fs' : List (Site × Option Failure)} : RecordsAlike S fs fs' →
      EntryAlike S (errorKey, .failures fs) (errorKey, .failures fs')

theorem EntryAlike.fst {e e' : Bytes × Value} (h : EntryAlike S e e') : e'.1 = e.1 := by
  cases h <;> rfl

/-- What is shared is the same but for the sites of recorded failures. -/
abbrev Alike (S : Site → Site → Prop) : Remote → Remote → Prop := List.Forall₂ (EntryAlike S)

namespace Alike

theorem refl (remote : Remote) : remote.Alike S remote := List.forall₂_same.2 fun e _ => .refl e

variable (h : remote.Alike S remote')
include h

theorem insert {v v' : Value} (hv : EntryAlike S (name, v) (name, v')) :
    Alike S (remote.insert name v) (remote'.insert name v') := by
  induction h with
  | nil => exact .cons hv .nil
  | @cons e e' _ _ he hrest ih =>
    obtain ⟨k, u⟩ := e
    obtain ⟨k', u'⟩ := e'
    obtain rfl : k' = k := he.fst
    rw [Assoc.insert, Assoc.insert]
    split
    · exact .cons hv hrest
    · exact .cons he ih

theorem get (name : Bytes) :
    Option.Rel (fun v v' => EntryAlike S (name, v) (name, v')) (remote.get? name) (remote'.get? name) := by
  induction h with
  | nil => exact .none
  | @cons e e' _ _ he _ ih =>
    obtain ⟨k, u⟩ := e
    obtain ⟨k', u'⟩ := e'
    obtain rfl : k' = k := he.fst
    rw [Assoc.get?_cons, Assoc.get?_cons]
    split
    · next hname =>
      obtain rfl := hname
      exact .some he
    · exact ih

theorem get?_eq (hname : name ≠ errorKey) : remote'.get? name = remote.get? name := by
  have hget := h.get name
  generalize remote.get? name = v at hget
  generalize remote'.get? name = v' at hget
  cases hget with
  | none => rfl
  | some he =>
    cases he with
    | refl _ => rfl
    | failures _ => exact absurd rfl hname

theorem errors (hS : ∀ site, S site site) : RecordsAlike S remote.errors remote'.errors := by
  have hsame : ∀ fs : List (Site × Option Failure), RecordsAlike S fs fs := fun fs =>
    List.forall₂_same.2 fun p _ => ⟨hS p.1, rfl⟩
  have hget := h.get errorKey
  unfold Remote.errors
  generalize remote.get? errorKey = v at hget
  generalize remote'.get? errorKey = v' at hget
  cases hget with
  | none => exact hsame _
  | some he =>
    cases he with
    | refl _ => exact hsame _
    | failures hfs => exact hfs

theorem record (hS : ∀ site, S site site) {site site' : Site} (hsite : S site site') (cause : Option Failure) :
    Alike S (remote.record site cause) (remote'.record site' cause) :=
  h.insert (.failures (List.rel_append (h.errors hS) (.cons ⟨hsite, rfl⟩ .nil)))

theorem truncateErrors (hS : ∀ site, S site site) (n : Nat) :
    Alike S (remote.truncateErrors n) (remote'.truncateErrors n) := by
  unfold Remote.truncateErrors
  rw [(h.errors hS).length_eq]
  split
  · exact h.insert (.failures (List.forall₂_take n (h.errors hS)))
  · exact h

theorem settings? : remote'.settings? = remote.settings? := by
  rw [Remote.settings?, Remote.settings?, h.get?_eq (by decide)]

theorem mergeInto (vars : Vars) : remote'.mergeInto vars = remote.mergeInto vars := by
  unfold Remote.mergeInto
  congr 1
  induction h with
  | nil => rfl
  | cons he _ ih =>
    cases he with
    | refl e => rw [List.filter_cons, List.filter_cons, ih]
    | failures _ => simpa [List.filter_cons] using ih

omit h in
theorem eq (h : remote.Alike Eq remote') : remote' = remote := by
  have hrecords : ∀ fs fs', RecordsAlike Eq fs fs' → fs' = fs := fun fs fs' hfs => by
    have heq := hfs.imp fun _ _ hp => Prod.ext hp.1 hp.2.symm
    exact (List.forall₂_eq_eq_eq ▸ heq).symm
  have hentries : List.Forall₂ Eq remote remote' := h.imp fun _ _ he => by
    cases he with
    | refl _ => rfl
    | failures hfs => rw [hrecords _ _ hfs]
  exact (List.forall₂_eq_eq_eq ▸ hentries).symm

end Alike

theorem get?_mergeInto_of_none (h : remote.get? name = none) (vars : Vars) :
    (remote.mergeInto vars).get? name = vars.get? name := by
  refine Assoc.get?_insertAll_of_ne (fun e he heq => Assoc.get?_eq_none_iff.1 h ?_) vars
  exact List.mem_map.2 ⟨e, List.mem_of_mem_filter he, heq⟩

end Remote

namespace Render

open Run (Keeps)

/-- What is watched in a run. -/
structure Watch where
  /-- Nothing has happened that was not to happen. -/
  Fine : State → Prop
  /-- What has happened stays so. -/
  lasting : Lasting fun st s => Fine s → Fine st
  heap (st : State) (h : Heap) : Fine { st with world := { st.world with heap := h } } → Fine st
  /-- The value of the expression may be remembered. -/
  Storable : Compiled → Prop
  storable (frame : Frame) (e : Compiled) (st : State) : Fine (evaluation frame e st).2 → Storable e

/-- What is fine afterwards has been so before. -/
abbrev Watch.Lasts (W : Watch) (st s : State) : Prop := W.Fine s → W.Fine st

/-- Which states of two runs go together. -/
structure Company where
  worlds : World → World → Prop
  bisimulation : World.Bisimulation worlds
  heap {w w' : World} (h : Heap) : worlds w w' → worlds { w with heap := h } { w' with heap := h }
  activations : List Activation → List Activation → Prop
  length {as as' : List Activation} : activations as as' → as'.length = as.length
  /-- The variables that have to keep their values. -/
  pinned : List (Bytes × Value)
  /-- The sites at which expressions that go together may stand. -/
  sites : Site → Site → Prop
  sites_refl (site : Site) : sites site site
  unbound : ∀ b ∈ pinned, b.1 ≠ Expression.loopsName ∧ b.1 ≠ utf8 "error"

namespace Company

/-- The variables have the values they have to keep, and what is shared is the same but for sites. -/
def Scoped (P : Company) (vars : Vars) (remote remote' : Remote) : Prop :=
  (∀ b ∈ P.pinned, vars.get? b.1 = some b.2) ∧ remote.Alike P.sites remote'

/-- The states are the same but for the world, the journal, what activations remember and the sites of failures. -/
inductive Related (P : Company) (st : State) : State → Prop where
  | intro {world : World} {remote : Remote} {events : List Event} {views : List View} {activations : List Activation} :
      P.worlds st.world world → P.Scoped st.vars st.remote remote → P.activations st.activations activations →
      Related P st { st with world, remote, events, views, activations }

/-- The same company, but nothing is asked of the variables. -/
def loose (P : Company) : Company := { P with pinned := [], unbound := by simp }

/-- The variable does not have to keep its value. -/
def Free (P : Company) (name : Bytes) : Prop := ∀ b ∈ P.pinned, b.1 ≠ name

namespace Related

variable {P : Company} {st st' : State}

theorem loose (h : P.Related st st') : P.loose.Related st st' := by
  obtain ⟨hw, hscope, has⟩ := h
  exact .intro hw ⟨by simp [Company.loose], hscope.2⟩ has

theorem journal (h : P.Related st st') (events : List Event) (views : List View) :
    P.Related { st with events, views } st' := by
  obtain ⟨hw, hscope, has⟩ := h
  exact .intro hw hscope has

theorem modifyHeap (h : P.Related st st') (f : Heap → Heap) :
    P.Related (modifyHeap f st) (Render.modifyHeap f st') := by
  obtain ⟨hw, hscope, has⟩ := h
  have hheap := (P.bisimulation.resembles hw).heap
  have hworlds := P.heap (f st.world.heap) hw
  simp only [Render.modifyHeap, hheap]
  exact .intro hworlds hscope has

end Related

/-- What is known of the frames of two runs, and of the expressions that go together there. -/
structure Fits (P : Company) (W : Watch) (frame frame' : Frame) (E : Compiled → Compiled → Prop) : Prop where
  program : frame'.program = frame.program
  settings : frame'.settings = frame.settings
  domain : frame'.domain = frame.domain
  evaluator {e e' : Compiled} : E e e' → e'.evaluator = e.evaluator
  site {e e' : Compiled} : E e e' → P.sites e.site e'.site
  recalled {e e' : Compiled} {as as' : List Activation} : E e e' → P.activations as as' →
    (as'.getD frame'.activation {}).cache.lookup e'.id = (as.getD frame.activation {}).cache.lookup e.id
  cached {e e' : Compiled} {v : Option Value} {as as' : List Activation} : E e e' → (v ≠ none → W.Storable e) →
    P.activations as as' →
    P.activations (as.modify frame.activation fun a => { a with cache := setEntry a.cache e.id v })
      (as'.modify frame'.activation fun a => { a with cache := setEntry a.cache e'.id v })
  switches {as as' : List Activation} : P.activations as as' →
    (as'.getD frame'.activation {}).switches = (as.getD frame.activation {}).switches
  switched (id : Int) (v : Option (Value × Bool)) {as as' : List Activation} : P.activations as as' →
    P.activations (as.modify frame.activation fun a => { a with switches := setEntry a.switches id v })
      (as'.modify frame'.activation fun a => { a with switches := setEntry a.switches id v })
  opened (id : Int) (opening opening' : Option Nat) {as as' : List Activation} : P.activations as as' →
    P.activations (as.modify frame.activation fun a => { a with openings := setEntry a.openings id opening })
      (as'.modify frame'.activation fun a => { a with openings := setEntry a.openings id opening' })

end Company

/-- The states look the same, whatever their activations remember and whatever is shared. -/
inductive Same (st : State) : State → Prop where
  | intro {world : World} {remote : Remote} {events : List Event} {views : List View} {activations : List Activation} :
      st.world.Resembles world → Same st { st with world, remote, events, views, activations }

theorem Same.refl (st : State) : Same st st := .intro (.refl _)

theorem Company.Related.same {P : Company} {st st' : State} (h : P.Related st st') : Same st st' := by
  obtain ⟨hw, _, _⟩ := h
  exact .intro (P.bisimulation.resembles hw)

/-! ### Runs that mirror one another -/

/-- The results are the same but for the sites of failures. -/
inductive Ended (S : Site → Site → Prop) {α : Type} : Except Failure α → Except Failure α → Prop where
  | ok (a : α) : Ended S (.ok a) (.ok a)
  | error {f f' : Failure} : f.Alike S f' → Ended S (.error f) (.error f')

theorem Ended.eq {α : Type} {r r' : Except Failure α} (h : Ended Eq r r') : r' = r := by
  cases h with
  | ok a => rfl
  | error hf =>
    cases hf with
    | refl f => rfl
    | located cause hsite => rw [hsite]

variable {α β : Type} {W : Watch} {P Q : Company}

/-- From states that go together, the second run goes where the first one goes, as long as all is fine. -/
structure Mirrors (W : Watch) (P : Company) (act act' : Run α) : Prop where
  lasts : Keeps W.Lasts act
  mirrors : ∀ st st' r s, P.Related st st' → act.run st = some (r, s) → W.Fine s →
    ∃ r' s', act'.run st' = some (r', s') ∧ Ended P.sites r r' ∧ P.Related s s'

namespace Mirrors

theorem pure (a : α) : Mirrors W P (Pure.pure a) (Pure.pure a) where
  lasts := W.lasting.pure a
  mirrors st st' r s hst hrun _ := by
    cases hrun
    exact ⟨_, st', rfl, .ok a, hst⟩

theorem throw {f f' : Failure} (hf : f.Alike P.sites f') :
    Mirrors W P (MonadExcept.throw f : Run α) (MonadExcept.throw f') where
  lasts := W.lasting.throw f
  mirrors st st' r s hst hrun _ := by
    cases hrun
    exact ⟨_, st', rfl, .error hf, hst⟩

theorem lifted (r : Except Failure α) : Mirrors W P (liftExcept r : Run α) (liftExcept r) := by
  cases r with
  | ok a => exact pure a
  | error f => exact throw (.refl f)

theorem exceeded : Mirrors W P (Run.exceeded : Run α) Run.exceeded where
  lasts := .exceeded
  mirrors st st' r s _ hrun _ := by cases hrun

theorem attempt_bind {x x' : Run α} {f f' : Except Failure α → Run β} {K : Prop} (hx : Mirrors W P x x')
    (hknown : ∀ st r s, x.run st = some (r, s) → W.Fine s → K) (hlasts : ∀ r, Keeps W.Lasts (f r))
    (hf : ∀ r r', K → Ended P.sites r r' → Mirrors W P (f r) (f' r')) :
    Mirrors W P (Run.attempt x >>= f) (Run.attempt x' >>= f') where
  lasts := W.lasting.bind hx.lasts.attempt hlasts
  mirrors st st' r s hst hrun hs := by
    have hrun_attempt : ∀ {y : Run α} {g : Except Failure α → Run β} {u : State},
        (Run.attempt y >>= g).run u = (y.run u).bind fun p => (g p.1).run p.2 := by
      intro y g u
      rw [Run.run_bind, Run.run_attempt, Option.bind_map]
      rfl
    rw [hrun_attempt, Option.bind_eq_some_iff] at hrun
    obtain ⟨⟨r₁, s₁⟩, hfirst, hrest⟩ := hrun
    have hs₁ := hlasts r₁ _ _ _ hrest hs
    obtain ⟨r₁', s₁', hfirst', hr₁, hst₁⟩ := hx.mirrors _ _ _ _ hst hfirst hs₁
    have hnext := hf r₁ r₁' (hknown _ _ _ hfirst hs₁) hr₁
    obtain ⟨r', s', hrest', hend⟩ := hnext.mirrors _ _ _ _ hst₁ hrest hs
    refine ⟨r', s', ?_, hend⟩
    rw [hrun_attempt, hfirst']
    exact hrest'

theorem bind {x x' : Run α} {f f' : α → Run β} (hx : Mirrors W P x x') (hf : ∀ a, Mirrors W P (f a) (f' a)) :
    Mirrors W P (x >>= f) (x' >>= f') where
  lasts := W.lasting.bind hx.lasts fun a => (hf a).lasts
  mirrors st st' r s hst hrun hs := by
    rcases Run.run_bind_eq_some hrun with ⟨a, s₁, hfirst, hrest⟩ | ⟨e, hfirst, rfl⟩
    · obtain ⟨_, s₁', hfirst', ⟨_⟩, hst₁⟩ := hx.mirrors _ _ _ _ hst hfirst ((hf a).lasts _ _ _ hrest hs)
      obtain ⟨r', s', hrest', hend⟩ := (hf a).mirrors _ _ _ _ hst₁ hrest hs
      refine ⟨r', s', ?_, hend⟩
      rw [Run.run_bind, hfirst']
      exact hrest'
    · obtain ⟨r', s', hfirst', hr', hstate⟩ := hx.mirrors _ _ _ _ hst hfirst hs
      cases hr' with
      | error he =>
        refine ⟨_, s', ?_, .error he, hstate⟩
        rw [Run.run_bind, hfirst']
        rfl

theorem inspect {f f' : State → Run α} (hlasts : Keeps W.Lasts (get >>= f))
    (h : ∀ st st', P.Related st st' → Mirrors W P (f st) (f' st')) : Mirrors W P (get >>= f) (get >>= f') where
  lasts := hlasts
  mirrors st st' _ _ hst hrun hs := (h st st' hst).mirrors _ _ _ _ hst hrun hs

theorem look {f f' : State → Run α} (h : ∀ st st', Same st st' → Mirrors W P (f st) (f' st')) :
    Mirrors W P (get >>= f) (get >>= f') :=
  inspect (.get_bind fun st _ _ hrun => (h st st (.refl st)).lasts _ _ _ hrun) fun st st' hst => h st st' hst.same

theorem step {g g' : State → α × State} (hlasts : ∀ st, W.Lasts st (g st).2)
    (h : ∀ st st', P.Related st st' → (g' st').1 = (g st).1 ∧ P.Related (g st).2 (g' st').2) :
    Mirrors W P (modifyGet g : Run α) (modifyGet g') where
  lasts st r s hrun := by
    cases hrun
    exact hlasts st
  mirrors st st' r s hst hrun _ := by
    cases hrun
    obtain ⟨hvalue, hstate⟩ := h st st' hst
    exact ⟨.ok (g' st').1, (g' st').2, rfl, hvalue ▸ .ok _, hstate⟩

theorem change {g g' : State → State} (hlasts : ∀ st, W.Lasts st (g st))
    (h : ∀ st st', P.Related st st' → P.Related (g st) (g' st')) : Mirrors W P (modify g : Run Unit) (modify g') :=
  step hlasts fun st st' hst => ⟨rfl, h st st' hst⟩

theorem around (body body' : State → Run β) (enter enter' : State → State) {act act' : Run α}
    {leave leave' : State → Except Failure β × State → Except Failure α × State}
    (hact : ∀ st, act.run st = ((body st).run (enter st)).map (leave st))
    (hact' : ∀ st, act'.run st = ((body' st).run (enter' st)).map (leave' st))
    (hkeeps : ∀ st, Keeps W.Lasts (body st))
    (hbody : ∀ st st', P.Related st st' → Mirrors W Q (body st) (body' st'))
    (henter : ∀ st st', P.Related st st' → Q.Related (enter st) (enter' st'))
    (hleave : ∀ st st' r r' s s', P.Related st st' → Ended Q.sites r r' → Q.Related s s' → W.Fine (leave st (r, s)).2 →
      Ended P.sites (leave st (r, s)).1 (leave' st' (r', s')).1 ∧ P.Related (leave st (r, s)).2 (leave' st' (r', s')).2)
    (hlasts : ∀ st, W.Lasts st (enter st)) (hlasts' : ∀ st r s, W.Lasts s (leave st (r, s)).2) :
    Mirrors W P act act' where
  lasts st r s hrun hs := by
    rw [hact, Option.map_eq_some_iff] at hrun
    obtain ⟨⟨r₁, s₁⟩, hbody₁, hleft⟩ := hrun
    have hs₁ : W.Fine s₁ := hlasts' st r₁ s₁ (by rw [hleft]; exact hs)
    exact hlasts st (hkeeps st _ _ _ hbody₁ hs₁)
  mirrors st st' r s hst hrun hs := by
    rw [hact, Option.map_eq_some_iff] at hrun
    obtain ⟨⟨r₁, s₁⟩, hbody₁, hleft⟩ := hrun
    have hs' : W.Fine (leave st (r₁, s₁)).2 := by rw [hleft]; exact hs
    obtain ⟨r₁', s₁', hbody₁', hr₁, hst₁⟩ :=
      (hbody st st' hst).mirrors _ _ _ _ (henter st st' hst) hbody₁ (hlasts' st r₁ s₁ hs')
    have hend := hleave st st' r₁ r₁' s₁ s₁' hst hr₁ hst₁ hs'
    rw [hleft] at hend
    refine ⟨(leave' st' (r₁', s₁')).1, (leave' st' (r₁', s₁')).2, ?_, hend⟩
    rw [hact', hbody₁', Option.map_some]

theorem restoring {x x' : Run α} {restore restore' : State → State} (hx : Mirrors W P x x')
    (h : ∀ s s', P.Related s s' → P.Related (restore s) (restore' s')) (hlasts : ∀ s, W.Lasts s (restore s)) :
    Mirrors W P (Run.restoring restore x) (Run.restoring restore' x') :=
  around (fun _ => x) (fun _ => x') id id (Run.run_restoring restore x) (Run.run_restoring restore' x')
    (fun _ => hx.lasts) (fun _ _ _ => hx) (fun _ _ h => h) (fun _ _ _ _ _ _ _ hr hs _ => ⟨hr, h _ _ hs⟩) (fun _ => id)
    fun _ _ _ => hlasts _

theorem note (event event' : Event) : Mirrors W P (note event) (note event') :=
  change (fun st => W.lasting.noted st event)
    fun _ _ ⟨hw, hscope, has⟩ => .intro hw hscope has

theorem write (s : Bytes) : Mirrors W P (write s) (write s) :=
  change (fun st => W.lasting.append st s)
    fun _ _ ⟨hw, hscope, has⟩ => .intro hw hscope has

theorem resolved (v : Value) : Mirrors W P (resolved v) (resolved v) :=
  look fun _ _ ⟨hw⟩ => by
    obtain ⟨_, _⟩ := hw
    exact pure _

theorem truth (v : Value) : Mirrors W P (truth v) (truth v) := bind (resolved v) fun _ => pure _

theorem failAt {e e' : Compiled} (hsite : P.sites e.site e'.site) (f : Failure) :
    Mirrors W P (failAt e f : Run α) (failAt e' f) := by
  have hrecord : Mirrors W P (modify fun st : State => { st with remote := st.remote.record e.site (some f) })
      (modify fun st : State => { st with remote := st.remote.record e'.site (some f) }) :=
    change (fun st => W.lasting.record st _ _)
      fun _ _ ⟨hw, hscope, has⟩ => .intro hw ⟨hscope.1, hscope.2.record P.sites_refl hsite _⟩ has
  have hfail := bind hrecord fun _ => throw (α := α) (.located f hsite)
  unfold Render.failAt
  split
  · exact bind (throw (.refl f)) fun _ => hfail
  · exact hfail

theorem writeEntries (exclude : List Bytes) (booleans : Bool) (entries : Assoc Value) :
    Mirrors W P (writeEntries exclude booleans entries) (writeEntries exclude booleans entries) := by
  induction entries with
  | nil => exact pure _
  | cons entry rest ih =>
    obtain ⟨name, v⟩ := entry
    unfold Render.writeEntries
    dsimp only
    split
    · split
      · refine bind (truth v) fun b => ?_
        split
        · exact bind (write _) fun _ => ih
        · exact ih
      · exact bind (resolved v) fun _ => bind (write _) fun _ => ih
    · exact ih

theorem unpackAt {e e' : Compiled} (hsite : P.sites e.site e'.site) (names : List Bytes) (v : Value) :
    Mirrors W P (unpackAt e names v) (unpackAt e' names v) := by
  unfold Render.unpackAt
  split
  · split
    · exact pure _
    · exact failAt hsite _
  · exact pure _

section Framed

variable {frame frame' : Frame} {E : Compiled → Compiled → Prop} (hP : P.Fits W frame frame' E)
variable {e e' : Compiled} {ps ps' : List (Part Compiled)} {a a' : DynamicAttribute Compiled}
include hP

theorem translate (msgid : Bytes) (mapping : Assoc Bytes) (fallback : Bytes) :
    Mirrors W P (translate frame msgid mapping fallback) (translate frame' msgid mapping fallback) := by
  have hlanguage : Mirrors W P (targetLanguage frame) (targetLanguage frame') := by
    unfold targetLanguage
    rw [hP.settings]
    refine look fun st st' ⟨hw⟩ => ?_
    obtain ⟨_, _⟩ := hw
    dsimp only
    split <;> exact pure _
  unfold Render.translate
  rw [hP.settings, hP.domain]
  refine bind hlanguage fun language => step (fun st => ?_) ?_
  · exact W.lasting.trans (W.lasting.world st (.single (.translate frame.settings
      { msgid, domain := frame.domain, mapping, language, fallback } st.world))) (W.lasting.noted { st with world := _ } _)
  · rintro st _ ⟨hw, hscope, has⟩
    obtain ⟨text, u, u', hu, hu', hworlds⟩ := (P.bisimulation.translate frame.settings
      { msgid, domain := frame.domain, mapping, language, fallback } hw).exists
    dsimp only
    rw [hu, hu']
    exact ⟨rfl, .intro hworlds hscope has⟩

theorem translateValue (msgid : Bytes) (v : Value) :
    Mirrors W P (translateValue frame msgid v) (translateValue frame' msgid v) := by
  refine bind (resolved v) fun shown => ?_
  dsimp only
  generalize (if msgid.isEmpty then shown.toText else msgid) = msgid
  split
  · exact pure v
  · exact bind (translate hP _ [] _) fun _ => pure _

theorem booleanAttributes : Mirrors W P (booleanAttributes frame) (booleanAttributes frame') := by
  unfold Render.booleanAttributes
  rw [hP.program]
  refine look fun st st' ⟨hw⟩ => ?_
  have hsettings := (hw.program frame.program).settings
  dsimp only
  rw [hsettings]
  obtain ⟨_, _⟩ := hw
  exact pure _

/-! ### Expressions -/

theorem evaluateFresh (he : E e e') :
    Mirrors W P (evaluateFresh frame e) (evaluateFresh frame' e') := by
  rw [evaluateFresh_eq, evaluateFresh_eq]
  refine bind (step (W.lasting.evaluated trivial) ?_) fun r => ?_
  · rintro st _ @⟨w, _, _, _, _, hw, hscope, has⟩
    obtain ⟨r, u, u', hu, hu', hworlds⟩ :=
      (Evaluator.respects_eval P.bisimulation st.vars e.evaluator st.world w hw).exists
    have hu : (e.evaluator.eval st.vars).run st.world = (r, u) := hu
    have hu' : (e.evaluator.eval st.vars).run w = (r, u') := hu'
    simp only [evaluation, hP.evaluator he, hu, hu']
    exact ⟨trivial, .intro hworlds hscope has⟩
  · cases r with
    | ok v => exact pure v
    | error f => exact failAt (hP.site he) f

theorem evaluate (he : E e e') : Mirrors W P (evaluate frame e) (evaluate frame' e') := by
  refine inspect (W.lasting.evaluate frame trivial) fun st st' ⟨_, _, has⟩ => ?_
  dsimp only
  rw [hP.recalled he has]
  split
  · exact bind (note _ _) fun _ => pure _
  · exact evaluateFresh hP he

theorem writeParts (h : List.Forall₂ (Part.Paired E) ps ps') :
    Mirrors W P (writeParts frame ps) (writeParts frame' ps') := by
  induction h with
  | nil => exact pure _
  | cons hp _ ih =>
    cases hp with
    | literal s => exact bind (write s) fun _ => ih
    | expr he =>
      refine bind (evaluate hP he) fun v => ?_
      split
      · exact bind (resolved v) fun _ => bind (write _) fun _ => ih
      · exact ih

theorem attributeParts (quote : Bytes) (h : List.Forall₂ (Part.Paired E) ps ps') :
    Mirrors W P (attributeParts frame quote ps) (attributeParts frame' quote ps') := by
  induction h with
  | nil => exact pure _
  | cons hp _ ih =>
    cases hp with
    | literal s => exact bind ih fun _ => pure _
    | expr he =>
      refine bind (evaluate hP he) fun v => ?_
      split
      · exact bind (pure _) fun _ => bind ih fun _ => pure _
      · exact bind (resolved v) fun _ => bind (pure _) fun _ => bind ih fun _ => pure _

theorem interpolated (quote : Bytes) (h : List.Forall₂ (Part.Paired E) ps ps') :
    Mirrors W P (interpolated frame quote ps) (interpolated frame' quote ps') := by
  have hparts := bind (attributeParts hP quote h) fun s => pure (P := P) (W := W) (Value.markup s)
  cases h with
  | nil => exact hparts
  | cons hp hrest =>
    cases hrest with
    | nil =>
      cases hp with
      | literal s => exact hparts
      | expr he => exact evaluate hP he
    | cons _ _ => cases hp <;> exact hparts

theorem operand {o o' : Operand Compiled} (h : o.Paired E o') : Mirrors W P (operand frame o) (operand frame' o') := by
  induction h with
  | literal s => exact pure _
  | expr he => exact evaluate hP he
  | interpolated source hps => exact interpolated hP _ hps
  | isDefault he => exact bind (evaluate hP he) fun _ => pure _
  | not _ ih => exact bind ih fun v => bind (truth v) fun _ => pure _
  | missing => exact pure _

theorem writeAttribute (h : a.Paired E a') (v : Value) :
    Mirrors W P (writeAttribute frame a v) (writeAttribute frame' a' v) := by
  obtain ⟨_⟩ := h
  unfold Render.writeAttribute
  dsimp only
  split
  · exact bind (translateValue hP _ v) fun v => bind (resolved v) fun _ => write _
  · exact bind (pure v) fun v => bind (resolved v) fun _ => write _

theorem attributeValue (h : a.Paired E a') :
    Mirrors W P (attributeValue frame a) (attributeValue frame' a') := by
  obtain ⟨hvalue⟩ := h
  have hoperand := operand hP hvalue
  unfold Render.attributeValue
  dsimp only
  generalize a.value = o at hvalue hoperand
  cases hvalue with
  | literal s => exact pure _
  | interpolated source hps => exact interpolated hP _ hps
  | _ => exact hoperand

theorem renderAttribute (h : a.Paired E a') :
    Mirrors W P (renderAttribute frame a) (renderAttribute frame' a') := by
  have hwrite := writeAttribute hP h
  refine bind (attributeValue hP h) fun v => ?_
  obtain ⟨_⟩ := h
  dsimp only
  split
  · split
    · exact write _
    · exact pure _
  · split
    · exact pure _
    · refine bind (booleanAttributes hP) fun b => ?_
      split
      · refine bind (truth v) fun b => ?_
        split
        · exact hwrite _
        · exact pure _
      · exact hwrite v

theorem renderAttributeMap (he : E e e') (exclude : List Bytes) :
    Mirrors W P (renderAttributeMap frame e exclude) (renderAttributeMap frame' e' exclude) := by
  refine bind (evaluate hP he) fun v => look fun st st' ⟨hw⟩ => ?_
  have hentries : ∀ {w}, st.world.Resembles w → mapEntries w v = mapEntries st.world v := fun hw => by
    simp only [mapEntries, hw.entriesOf?]
  dsimp only
  rw [hentries hw]
  split
  · exact bind (booleanAttributes hP) fun _ => writeEntries exclude _ _
  · exact failAt (hP.site he) _

theorem renderContent (he : E e e') (raw translated : Bool) :
    Mirrors W P (renderContent frame e raw translated) (renderContent frame' e' raw translated) := by
  refine bind (evaluate hP he) fun v => ?_
  split
  · exact pure _
  · cases translated with
    | true => exact bind (translateValue hP [] v) fun v => bind (resolved v) fun _ => write _
    | false => exact bind (pure v) fun v => bind (resolved v) fun _ => write _

end Framed

section Bodies

variable {body body' : Run Unit} {names : List Bytes}
variable {frame frame' : Frame} {E : Compiled → Compiled → Prop} (hP : P.Fits W frame frame' E)

theorem binding (hname : P.Free name) (v : Value) (hbody : Mirrors W P body body') :
    Mirrors W P (binding name v body) (binding name v body') := by
  refine around (fun _ => body) (fun _ => body') _ _ (run_binding name v body) (run_binding name v body')
    (fun _ => hbody.lasts) (fun _ _ _ => hbody) ?_ ?_ (fun st => W.lasting.vars st _)
    fun _ _ s => W.lasting.vars s _
  · rintro st _ ⟨hw, hscope, has⟩
    refine .intro hw ⟨fun b hb => ?_, hscope.2⟩ has
    simpa [hname b hb] using hscope.1 b hb
  · rintro st _ r r' s _ ⟨_, _, _⟩ hr ⟨hw, hscope, has⟩ _
    refine ⟨hr, .intro hw ⟨fun b hb => ?_, hscope.2⟩ has⟩
    dsimp only
    simpa [hname b hb] using hscope.1 b hb

theorem bindingAll {bindings : List (Bytes × Value)} (hnames : ∀ b ∈ bindings, P.Free b.1)
    (hbody : Mirrors W P body body') : Mirrors W P (bindingAll bindings body) (bindingAll bindings body') := by
  induction bindings with
  | nil => exact hbody
  | cons b bs ih =>
    have hrest := ih fun b' hb' => hnames b' (List.mem_cons_of_mem b hb')
    exact binding (hnames b List.mem_cons_self) b.2 hrest

theorem setGlobal (hname : P.Free name) (v : Value) : Mirrors W P (setGlobal name v) (setGlobal name v) := by
  refine change (fun st => W.lasting.global name v st _ _ rfl) ?_
  rintro st _ ⟨hw, hscope, has⟩
  refine .intro hw ⟨fun b hb => ?_, hscope.2.insert (.refl _)⟩ has
  dsimp only
  simpa [hname b hb] using hscope.1 b hb

include hP in
theorem renderDefine {as as' : List (Assignment Compiled)} (h : List.Forall₂ (Assignment.Paired E) as as')
    (hnames : ∀ a ∈ as, ∀ name ∈ a.names, P.Free name) (hbody : Mirrors W P body body') :
    Mirrors W P (renderDefine frame body as) (renderDefine frame' body' as') := by
  induction h with
  | nil => exact hbody
  | @cons a _ as _ ha _ ih =>
    obtain ⟨he⟩ := ha
    have hrest := ih fun a' ha' => hnames a' (List.mem_cons_of_mem a ha')
    refine bind (evaluateFresh hP he) fun v => bind (unpackAt (hP.site he) _ _) fun values => ?_
    have hbound : ∀ b ∈ a.names.zip values, P.Free b.1 := fun b hb =>
      hnames a List.mem_cons_self b.1 (List.of_mem_zip hb).1
    dsimp only
    split
    · refine bind ?_ fun _ => hrest
      generalize a.names.zip values = bindings at hbound
      induction bindings with
      | nil => exact pure _
      | cons b bs ihbs =>
        refine bind (setGlobal (hbound b List.mem_cons_self) b.2) fun _ => ?_
        exact ihbs fun b' hb' => hbound b' (List.mem_cons_of_mem b hb')
    · exact bindingAll hbound hrest

theorem modifyHeap (f : Heap → Heap) : Mirrors W P (modify (modifyHeap f)) (modify (Render.modifyHeap f)) :=
  change (fun st => W.heap st _) fun _ _ h => h.modifyHeap f

theorem advance (loop : Nat) : Mirrors W P (advance loop) (advance loop) := by
  refine step (fun st => W.heap st _) ?_
  rintro st _ ⟨hw, hscope, has⟩
  have hheap := (P.bisimulation.resembles hw).heap
  have hworlds := P.heap (st.world.heap.advance loop).2 hw
  simp only [hheap]
  exact ⟨trivial, .intro hworlds hscope has⟩

theorem iterations {e e' : Compiled} (hsite : P.sites e.site e'.site) (hnames : ∀ name ∈ names, P.Free name)
    (loop : Nat) (whitespace : Bytes) (hbody : Mirrors W P body body') (n : Nat) :
    Mirrors W P (iterations e names loop whitespace body n) (iterations e' names loop whitespace body' n) := by
  induction n with
  | zero => exact pure _
  | succ n ih =>
    refine bind (advance loop) fun item => ?_
    cases item with
    | none => exact pure _
    | some v =>
      refine bind (note _ _) fun _ => bind (unpackAt hsite _ _) fun values => ?_
      have hbound : ∀ b ∈ names.zip values, P.Free b.1 := fun b hb => hnames b.1 (List.of_mem_zip hb).1
      refine bind (bindingAll hbound hbody) fun _ => look fun st st' ⟨hw⟩ => ?_
      dsimp only
      rw [hw.heap]
      split
      · exact bind (write whitespace) fun _ => ih
      · exact ih

theorem loopTable : Mirrors W P loopTable loopTable where
  lasts := W.lasting.toElementary.loopTable W.lasting.vars W.heap
  mirrors st st' r s hst hrun hs := by
    obtain ⟨hw, hscope, has⟩ := hst
    have hheap := (P.bisimulation.resembles hw).heap
    rw [Render.loopTable, Run.run_get_bind] at hrun ⊢
    dsimp only at hrun ⊢
    split at hrun
    · cases hrun
      exact ⟨_, _, rfl, .ok _, .intro hw hscope has⟩
    · cases hrun
      have hworlds := P.heap st.world.heap.newTable.2 hw
      refine ⟨_, _, by rw [hheap]; rfl, .ok _, .intro hworlds ⟨fun b hb => ?_, hscope.2⟩ has⟩
      dsimp only
      simpa [(P.unbound b hb).1] using hscope.1 b hb

include hP in
theorem renderLoop {e e' : Compiled} (he : E e e') (hnames : ∀ name ∈ names, P.Free name) (whitespace : Bytes)
    (hbody : Mirrors W P body body') :
    Mirrors W P (renderLoop frame names e whitespace body) (renderLoop frame' names e' whitespace body') := by
  refine bind (evaluate hP he) fun source => look fun st st' ⟨hw⟩ => ?_
  dsimp only
  rw [hw.heap]
  split
  · exact failAt (hP.site he) _
  · refine bind (modifyHeap _) fun _ => bind loopTable fun table => look fun st st' ⟨hw⟩ => ?_
    dsimp only
    rw [hw.heap]
    refine bind (modifyHeap _) fun _ => look fun st st' ⟨hw⟩ => ?_
    dsimp only
    rw [hw.heap]
    exact restoring (iterations (hP.site he) hnames _ whitespace hbody _) (fun _ _ h => h.modifyHeap _) fun s => W.heap s _

section Cache

variable {st s : State} {es es' : List Compiled}
include hP

theorem setCached {e e' : Compiled} (he : E e e') {v : Option Value} (hv : v ≠ none → W.Storable e) {st' : State}
    (h : P.Related st st') : P.Related (setCached frame e.id v st) (Render.setCached frame' e'.id v st') := by
  obtain ⟨hw, hscope, has⟩ := h
  exact .intro hw hscope (hP.cached he hv has)

omit hP in
theorem storable_of_evaluateFresh {e : Compiled} {r : Except Failure Value}
    (h : (Render.evaluateFresh frame e).run st = some (r, s)) (hs : W.Fine s) : W.Storable e := by
  rw [evaluateFresh_eq, Run.run_bind] at h
  have hlasts : W.Lasts (evaluation frame e st).2 s := W.lasting.outcome e _ _ _ _ h
  exact W.storable frame e st (hlasts hs)

omit hP in
theorem lasts_cacheValues (frame : Frame) (es : List Compiled) : Keeps W.Lasts (cacheValues frame es) :=
  W.lasting.toElementary.cacheValues (fun _ _ _ st _ => W.lasting.activations st _) frame es fun _ _ => trivial

omit hP in
theorem cacheValues_cons_bind (frame : Frame) (e : Compiled) (es : List Compiled)
    (f : List (Option Value) × Option Failure → Run β) :
    Render.cacheValues frame (e :: es) >>= f = Run.attempt (Render.evaluateFresh frame e) >>= fun r =>
      match r with
      | .error failure => f ((e :: es).map fun _ => none, some failure)
      | .ok v => activation frame >>= fun a => modify (Render.setCached frame e.id (some v)) >>= fun _ =>
        Render.cacheValues frame es >>= fun p => f (a.cache.lookup e.id :: p.1, p.2) := by
  rw [Render.cacheValues, bind_assoc]
  congr 1
  funext r
  cases r with
  | error failure => rfl
  | ok v => simp only [bind_assoc, pure_bind]

theorem cacheValues_bind {f f' : List (Option Value) × Option Failure → Run β} (h : List.Forall₂ E es es')
    (hlasts : ∀ p, Keeps W.Lasts (f p))
    (hf : ∀ previous failed failed', (∀ p ∈ es.zip previous, p.2 ≠ none → W.Storable p.1) →
      Option.Rel (Failure.Alike P.sites) failed failed' → Mirrors W P (f (previous, failed)) (f' (previous, failed'))) :
    Mirrors W P (cacheValues frame es >>= f) (cacheValues frame' es' >>= f') := by
  induction h generalizing f f' with
  | nil => exact hf [] none none (by simp) .none
  | @cons e e' es es' he hes ih =>
    have hrest : ∀ v, Keeps W.Lasts (activation frame >>= fun a => modify (Render.setCached frame e.id (some v)) >>=
        fun _ => cacheValues frame es >>= fun p => f (a.cache.lookup e.id :: p.1, p.2)) := fun v =>
      W.lasting.bind (W.lasting.activation frame) fun _ => W.lasting.bind (.modify fun st => W.lasting.activations st _)
        fun _ => W.lasting.bind (lasts_cacheValues frame es) fun _ => hlasts _
    rw [cacheValues_cons_bind, cacheValues_cons_bind]
    refine attempt_bind (K := W.Storable e) (evaluateFresh hP he) (fun _ _ _ => storable_of_evaluateFresh) ?_ ?_
    · intro r
      cases r with
      | error f => exact hlasts _
      | ok v => exact hrest v
    · intro r r' hstorable hr
      cases hr with
      | error hfailed =>
        have hlength : ((e' :: es').map fun _ => (none : Option Value)) = (e :: es).map fun _ => none := by
          rw [List.map_const', List.map_const', List.length_cons, List.length_cons, hes.length_eq]
        dsimp only
        rw [hlength]
        refine hf _ _ _ (fun p hp hne => ?_) (.some hfailed)
        obtain ⟨_, _, hnone⟩ := List.mem_map.1 (List.of_mem_zip hp).2
        exact absurd hnone.symm hne
      | ok v =>
        refine inspect (hrest v) fun st st' ⟨_, _, has⟩ => ?_
        dsimp only
        rw [hP.recalled he has]
        refine bind (change (fun st => W.lasting.activations st _) fun st st' h => setCached hP he (fun _ => hstorable) h)
          fun _ => ih (fun p => hlasts _) fun previous failed failed' hprevious hfailed => hf _ _ _ ?_ hfailed
        exact List.forall_mem_cons.2 ⟨fun _ => hstorable, hprevious⟩

theorem renderCache (h : List.Forall₂ E es es') (hbody : Mirrors W P body body') :
    Mirrors W P (renderCache frame es body) (renderCache frame' es' body') := by
  have hlasts : ∀ (ps : List (Compiled × Option Value)) (s : State),
      W.Lasts s (ps.foldl (fun st p => Render.setCached frame p.1.id p.2 st) s) := by
    intro ps
    induction ps with
    | nil => exact fun s => id
    | cons p ps ih => exact fun s => W.lasting.trans (W.lasting.activations s _) (ih (Render.setCached frame p.1.id p.2 s))
  refine cacheValues_bind hP h ?_ fun previous failed failed' hstorable hfailed => restoring ?_ ?_ (hlasts _)
  · rintro ⟨previous, failed⟩
    refine W.lasting.restoring ?_ (hlasts _)
    cases failed with
    | some f => exact W.lasting.throw f
    | none => exact hbody.lasts
  · cases hfailed with
    | some hf => exact throw hf
    | none => exact hbody
  · -- One value after the other is put back.
    clear hlasts
    induction h generalizing previous with
    | nil => exact fun s s' hs => hs
    | cons he _ ih =>
      cases previous with
      | nil => exact fun s s' hs => hs
      | cons v previous =>
        obtain ⟨hv, hrest⟩ := List.forall_mem_cons.1 hstorable
        exact fun s s' hs => ih previous hrest _ _ (setCached hP he hv hs)

end Cache

theorem capture (named : Option (Assoc Bytes)) (hbody : Mirrors W P body body') :
    Mirrors W P (capture named body) (capture named body') := by
  refine around (fun _ => body) (fun _ => body') _ _ (run_capture named body) (run_capture named body')
    (fun _ => hbody.lasts) (fun _ _ _ => hbody) ?_ ?_
    (fun st => W.lasting.trans (W.lasting.out st _) (W.lasting.named { st with out := {} } _))
    fun st _ s => W.lasting.trans (W.lasting.out s st.out) (W.lasting.named { s with out := st.out } _)
  · rintro st _ ⟨hw, hscope, has⟩
    exact .intro hw hscope has
  · rintro st _ r r' s _ ⟨_, _, _⟩ hr ⟨hw, hscope, has⟩ _
    refine ⟨?_, .intro hw hscope has⟩
    cases hr with
    | ok a => exact .ok _
    | error hf => exact .error hf

theorem renderName (name : Bytes) (hbody : Mirrors W P body body') :
    Mirrors W P (renderName name body) (renderName name body') := by
  refine look fun st st' ⟨_⟩ => ?_
  dsimp only
  split
  · exact hbody
  · refine bind (capture none hbody) fun _ => bind (change (fun st => W.lasting.named st _) ?_) fun _ => write _
    rintro st _ ⟨hw, hscope, has⟩
    exact .intro hw hscope has

theorem renderOnError {fallback fallback' : Run Unit} (hbody : Mirrors W P body body')
    (hfallback : Mirrors W P fallback fallback') :
    Mirrors W P (renderOnError body fallback) (renderOnError body' fallback') := by
  have hunbound : P.Free (utf8 "error") := fun b hb => (P.unbound b hb).2
  refine inspect (W.lasting.toScoped.renderOnError hbody.lasts hfallback.lasts) fun before before' hbefore => ?_
  refine attempt_bind (K := True) hbody (fun _ _ _ _ _ => trivial) (fun r => ?_) fun r r' _ hr => ?_
  · cases r with
    | ok _ => exact W.lasting.pure _
    | error f =>
      exact W.lasting.bind (.modify (W.lasting.handlerStart before)) fun _ => W.lasting.toScoped.binding _ _ hfallback.lasts
  · cases hr with
    | ok _ => exact pure _
    | @error f f' hf =>
      have hcause : unlocated f' = unlocated f := by cases hf <;> rfl
      refine bind (change (W.lasting.handlerStart before) ?_) fun _ => ?_
      · obtain ⟨_, hshared, _⟩ := hbefore
        rintro st _ ⟨hw, hscope, has⟩
        dsimp only
        rw [← (hshared.2.errors P.sites_refl).length_eq]
        exact .intro hw ⟨hscope.1, hscope.2.truncateErrors P.sites_refl _⟩ has
      · change Mirrors W P (Render.binding _ (.failure (unlocated f)) fallback)
          (Render.binding _ (.failure (unlocated f')) fallback')
        rw [hcause]
        exact binding hunbound _ hfallback

theorem agreesWith (value v : Value) : Mirrors W P (agreesWith value v) (agreesWith value v) := by
  unfold Render.agreesWith
  split
  · exact pure _
  · refine bind (change (fun st => W.lasting.world st (.single (.compare v value st.world))) ?_) fun _ => pure _
    rintro st _ ⟨hw, hscope, has⟩
    exact .intro (P.bisimulation.compare v value hw) hscope has

section Framed

include hP

theorem renderTranslate (msgid : Bytes) (hbody : Mirrors W P body body') :
    Mirrors W P (renderTranslate frame msgid body) (renderTranslate frame' msgid body') := by
  refine bind (capture (some []) hbody) fun message => ?_
  obtain ⟨message, named⟩ := message
  dsimp only
  generalize (if msgid.isEmpty then Text.collapse message else msgid) = msgid
  split
  · exact pure _
  · exact bind (translate hP msgid _ _) fun _ => write _

theorem isChosen (opening opening' : Nat) (value : Value) {e e' : Option Compiled} (he : Option.Rel E e e') :
    Mirrors W P (isChosen frame opening value e) (isChosen frame' opening' value e') := by
  cases he with
  | none => exact pure _
  | some he => exact bind (note _ _) fun _ => bind (evaluate hP he) fun v => bind (note _ _) fun _ => agreesWith value v

theorem renderCase (id : Int) {e e' : Option Compiled} (he : Option.Rel E e e') (hbody : Mirrors W P body body') :
    Mirrors W P (renderCase frame id e body) (renderCase frame' id e' body') := by
  refine inspect (W.lasting.enclosing.case frame id (fun _ _ => trivial) (fun _ => hbody.lasts) [])
    fun st st' ⟨_, _, has⟩ => ?_
  dsimp only
  rw [hP.switches has]
  split
  · exact pure _
  · exact pure _
  · refine bind (isChosen hP _ _ _ he) fun chosen => ?_
    split
    · refine bind (note _ _) fun _ => bind (change (fun st => W.lasting.activations st _) ?_) fun _ => hbody
      rintro st _ ⟨hw, hscope, has⟩
      exact .intro hw hscope (hP.switched id _ has)
    · exact pure _

theorem setRegister (id : Int) {v v' : Option (Value × Bool)} (hv : v' = v) (opening opening' : Option Nat)
    {st st' : State} (h : P.Related st st') :
    P.Related (setRegister frame id v opening st) (Render.setRegister frame' id v' opening' st') := by
  subst hv
  obtain ⟨hw, hscope, has⟩ := h
  exact .intro hw hscope (hP.opened id opening opening' (hP.switched id v' has))

theorem renderSwitch (id : Int) {e e' : Compiled} (he : E e e') (hbody : Mirrors W P body body') :
    Mirrors W P (renderSwitch frame id e body) (renderSwitch frame' id e' body') := by
  refine bind (evaluateFresh hP he) fun v => ?_
  -- The openings are numbered by the events so far, and these need not be the same.
  refine around (fun _ => body) (fun _ => body')
    (fun st => Render.setRegister frame id (some (v, false)) (some st.events.length)
      { st with events := .opened st.events.length v :: st.events })
    (fun st => Render.setRegister frame' id (some (v, false)) (some st.events.length)
      { st with events := .opened st.events.length v :: st.events })
    (fun st => Run.run_restoring _ body _) (fun st => Run.run_restoring _ body' _) (fun _ => hbody.lasts)
    (fun _ _ _ => hbody) ?_ ?_ ?_ ?_
  · rintro st _ ⟨hw, hscope, has⟩
    exact setRegister hP id rfl _ _ (.intro hw hscope has)
  · intro st st' r r' s s' hst hr hs _
    obtain ⟨_, _, has⟩ := hst
    exact ⟨hr, setRegister hP id (congrArg (List.lookup id) (hP.switches has)) _ _ hs⟩
  · exact fun st h => W.lasting.noted st _ (W.lasting.activations _ _ h)
  · exact fun _ _ s h => W.lasting.activations s _ h

end Framed

end Bodies

/-! ### Fills and macros -/

section Calls

variable {call : Continuation}
variable {slots slots' : Fills}

theorem renderFill {fill fill' : Node Compiled × Frame}
    (h : Mirrors W P.loose (call fill.2 fill.1) (call fill'.2 fill'.1)) :
    Mirrors W P (renderFill call fill) (renderFill call fill') := by
  refine around _ _ _ _ (run_renderFill call fill) (run_renderFill call fill') (fun _ => h.lasts) (fun _ _ _ => h) ?_ ?_
    (fun st => W.lasting.named st _)
    fun st _ s => W.lasting.trans (W.lasting.vars s st.vars) (W.lasting.named { s with vars := st.vars } _)
  · rintro st _ ⟨hw, hscope, has⟩
    exact .intro hw ⟨by simp [Company.loose], hscope.2⟩ has
  · rintro st _ r r' s _ ⟨_, hscope, _⟩ hr ⟨hw, hscope', has⟩ _
    exact ⟨hr, .intro hw ⟨hscope.1, hscope'.2⟩ has⟩

theorem bodyFrame_eq {st st' : State} (h : P.Related st st') (program bound : Nat) (slots slots' : Fills) :
    bodyFrame program bound slots' st' = { bodyFrame program bound slots st with slots := slots' } := by
  obtain ⟨hw, hscope, has⟩ := h
  have hlength := P.length has
  have hsettings := hscope.2.settings?
  have hresembles := P.bisimulation.resembles hw
  obtain ⟨_, _⟩ := hresembles
  simp only [bodyFrame, hlength, hsettings]
  rfl

theorem renderBody (program bound : Nat) {body body' : Node Compiled}
    (hworlds : ∀ w w', Q.worlds w w' ↔ P.worlds w w') (hsites : Q.sites = P.sites)
    (hpush : ∀ as as', P.activations as as' → Q.activations (as ++ [default]) (as' ++ [default]))
    (hpop : ∀ as as' bs bs', P.activations as as' → Q.activations bs bs' → P.activations (bs.take as.length)
      (bs'.take as.length))
    (hpinned : ∀ w w', P.worlds w w' → ∀ b ∈ Q.pinned, b = (utf8 "macros", (w.program program).macroTable program))
    (hkeeps : ∀ frame, Keeps W.Lasts (call frame body))
    (hbody : ∀ st st', P.loose.Related st st' → Mirrors W Q (call (bodyFrame program bound slots st) body)
      (call { bodyFrame program bound slots st with slots := slots' } body')) :
    Mirrors W P.loose (renderBody call program bound body slots) (renderBody call program bound body' slots') := by
  refine around (Q := Q) _ _ _ _ (run_renderBody call program bound body slots)
    (run_renderBody call program bound body' slots')
    (fun _ => hkeeps _) (fun st st' h => ?_) ?_ ?_ (fun st h => ?_) fun st _ s h => ?_
  · rw [bodyFrame_eq h program bound slots slots']
    exact hbody st st' h
  · rintro st _ ⟨hw, hscope, has⟩
    have htable := ((P.bisimulation.resembles hw).program program).macroTable program
    simp only [bodyStart, htable]
    refine .intro ((hworlds _ _).2 hw) ⟨fun b hb => ?_, hsites ▸ hscope.2⟩ (hpush _ _ has)
    simp [hpinned _ _ hw b hb]
  · rintro st _ r r' s _ ⟨_, _, hst⟩ hr ⟨hw, hscope, has⟩ _
    dsimp only
    rw [P.length hst]
    rw [hsites] at hr
    exact ⟨hr, .intro ((hworlds _ _).1 hw) ⟨by simp [Company.loose], hsites ▸ hscope.2⟩ (hpop _ _ _ _ hst has)⟩
  · exact W.lasting.vars st _ (W.lasting.named { st with vars := _ } none (W.lasting.activations _ _ h))
  · exact W.lasting.named s st.named (W.lasting.activations { s with named := st.named } _ h)

/-- What is known of bodies and fills, so that all macros are rendered alike. -/
structure Bodies (W : Watch) (P : Company) (call : Continuation) (slots slots' : Fills) :
    Prop where
  main {w w' : World} (program bound : Nat) : P.worlds w w' →
    Mirrors W P.loose (Render.renderBody call program bound (w.program program).main slots)
      (Render.renderBody call program bound (w'.program program).main slots')
  named {w w' : World} (program bound : Nat) (name : Bytes) : P.worlds w w' →
    Option.Rel (fun body body' => Mirrors W P.loose (Render.renderBody call program bound body slots)
      (Render.renderBody call program bound body' slots'))
      ((w.program program).body? name) ((w'.program program).body? name)
  fill (name : Bytes) : Option.Rel (fun fill fill' =>
    Mirrors W P.loose (call fill.2 fill.1) (call fill'.2 fill'.1)) (slots.lookup name) (slots'.lookup name)

theorem renderCooked (hcall : ∀ frame n, Keeps W.Lasts (call frame n)) (h : Bodies W P call slots slots') (id : Nat)
    {filename : Bytes} :
    Mirrors W P.loose (Render.renderMacro call slots (.template id filename))
      (Render.renderMacro call slots' (.template id filename)) := by
  refine around (Q := P.loose)
    (fun st => liftExcept (st.world.cook id).1 >>= fun program => Render.renderBody call program
      ((st.world.cook id).2.template id).settings ((st.world.cook id).2.program program).main slots)
    (fun st => liftExcept (st.world.cook id).1 >>= fun program => Render.renderBody call program
      ((st.world.cook id).2.template id).settings ((st.world.cook id).2.program program).main slots')
    (fun st => { st with world := (st.world.cook id).2 }) (fun st => { st with world := (st.world.cook id).2 })
    (fun st => Option.map_id'.symm) (fun st => Option.map_id'.symm) (fun st => ?_) ?_ ?_
    (fun _ _ _ _ _ _ _ hr hs _ => ⟨hr, hs⟩) (fun st => W.lasting.world st (.single (.cook id st.world))) fun _ _ _ h => h
  · exact W.lasting.bind (W.lasting.lifted _) fun program => W.lasting.renderBody hcall _ _ _ _
  · rintro st _ ⟨hw, _, _⟩
    obtain ⟨r, u, u', hu, hu', hworlds⟩ := (P.bisimulation.cook id hw).exists
    have hsettings : (u'.template id).settings = (u.template id).settings := by
      obtain ⟨_, _⟩ := P.bisimulation.resembles hworlds
      rfl
    simp only [hu, hu', hsettings]
    exact bind (lifted r) fun program => h.main program _ hworlds
  · rintro st _ ⟨hw, hscope, has⟩
    obtain ⟨r, u, u', hu, hu', hworlds⟩ := (P.bisimulation.cook id hw).exists
    simp only [hu, hu']
    exact .intro hworlds hscope has

theorem renderMacro (hcall : ∀ frame n, Keeps W.Lasts (call frame n)) (h : Bodies W P call slots slots') (m : Value) :
    Mirrors W P.loose (renderMacro call slots m) (renderMacro call slots' m) := by
  have hkeeps := W.lasting.renderMacro hcall slots m
  cases m with
  | namedMacro program filename name =>
    refine inspect hkeeps fun st st' hst => ?_
    obtain @⟨w, _, _, _, _, hw, _, _⟩ := hst
    have hsettings := ((P.bisimulation.resembles hw).program program).settings
    have hbody := h.named program (st.world.program program).settings name hw
    dsimp only
    rw [hsettings]
    generalize (st.world.program program).body? name = body at hbody
    generalize (w.program program).body? name = body' at hbody
    cases hbody with
    | none => exact throw (.refl _)
    | some hbody => exact hbody
  | program program bound =>
    exact inspect hkeeps fun st st' ⟨hw, _, _⟩ => h.main program bound hw
  | template id filename =>
    exact renderCooked hcall h id
  | hostMacro text =>
    refine bind (write _) fun _ => ?_
    have hfill := h.fill hostSlot
    generalize slots.lookup hostSlot = fill at hfill
    generalize slots'.lookup hostSlot = fill' at hfill
    cases hfill with
    | none => exact setGlobal (fun b hb => by cases hb) _
    | some hfill => exact renderFill hfill
  | _ => exact pure _

theorem callMacro {frame frame' : Frame} {fills fills' : List (Bytes × Node Compiled)} (extend : Bool) (m : Value)
    (hstore : ∀ s, W.Fine s → ∀ b ∈ P.pinned, s.remote.get? b.1 = none)
    (h : Mirrors W P.loose (Render.renderMacro call (passedSlots frame fills extend) m)
      (Render.renderMacro call (passedSlots frame' fills' extend) m)) :
    Mirrors W P (callMacro call frame fills extend m) (callMacro call frame' fills' extend m) := by
  refine around (Q := P.loose) (fun _ => _) (fun _ => _) id id (run_callMacro call frame fills extend m)
    (run_callMacro call frame' fills' extend m) (fun _ => h.lasts) (fun _ _ _ => h) (fun _ _ hst => hst.loose) ?_
    (fun _ => id) fun _ _ s => W.lasting.vars s _
  rintro st _ r r' s _ ⟨_, hscope, _⟩ hr ⟨hw, hscope', has⟩ hfine
  dsimp only
  rw [hscope'.2.mergeInto]
  refine ⟨hr, .intro hw ⟨fun b hb => ?_, hscope'.2⟩ has⟩
  exact (Remote.get?_mergeInto_of_none (hstore _ hfine b hb) _).trans (hscope.1 b hb)

end Calls

end Mirrors

end Render

end PageTemplate
