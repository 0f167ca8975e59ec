import PageTemplate.Proofs.Render.Mirroring
import PageTemplate.Proofs.Replacement
import PageTemplate.Proofs.SingleEvaluation
import PageTemplate.Proofs.Tracking

/-!
Two programs in one place. A world has one program or the other under a number, and they are the same but for their
expressions and for clauses that only the first has. The runs go side by side, as long as the expressions of these
clauses are the default marker, in company that knows which program each activation belongs to, since the programs may
remember values under different numbers.
-/

namespace PageTemplate

namespace Render

open Run (Keeps)

/-- What is before an expression makes it the default marker, and nothing else comes of it. -/
def View.IsDefault (v : View) : Prop := (v.expr.evaluator.eval v.vars).run v.world = (.ok .default, v.world)

/-- Two programs that are the same but for their expressions and for clauses that only the first has. -/
structure Twins where
  /-- The number under which worlds have one of the programs. -/
  number : Nat
  first : Program
  second : Program
  /-- The expressions that stand for each other. -/
  paired : Compiled → Compiled → Prop
  /-- The expressions of the clauses. -/
  leftOut : Compiled → Prop
  sites : Site → Site → Prop
  sites_refl (site : Site) : sites site site
  programs : first.Paired paired leftOut second
  source : second.source = first.source
  evaluator {e e' : Compiled} : paired e e' → e'.evaluator = e.evaluator
  site {e e' : Compiled} : paired e e' → sites e.site e'.site
  id_eq_iff {e e' e₁ e₁' : Compiled} : paired e e' → paired e₁ e₁' → (e₁'.id = e'.id ↔ e₁.id = e.id)
  id_ne {c e e' : Compiled} : leftOut c → paired e e' → e.id ≠ c.id

namespace Twins

variable (T : Twins)
variable {c : Compiled}

/-! ### What goes together -/

/-- The expressions of nodes of a program that stand for each other. -/
def Pairs (program : Nat) (e e' : Compiled) : Prop := if program = T.number then T.paired e e' else e' = e

/-- The expression of a clause, in the program that has it. -/
def IsClause (program : Nat) (e : Compiled) : Prop := program = T.number ∧ T.leftOut e

/-- The nodes of a program are the same but for the clause. -/
abbrev NodePaired (program : Nat) : Node Compiled → Node Compiled → Prop :=
  Node.Paired (T.Pairs program) (T.IsClause program)

variable {T}

namespace Pairs

variable {program : Nat} {e e' : Compiled}

theorem evaluator (h : T.Pairs program e e') : e'.evaluator = e.evaluator := by
  unfold Pairs at h
  split at h
  · exact T.evaluator h
  · rw [h]

theorem site (h : T.Pairs program e e') : T.sites e.site e'.site := by
  unfold Pairs at h
  split at h
  · exact T.site h
  · exact h ▸ T.sites_refl e.site

theorem id_eq_iff (h : T.Pairs program e e') {e₁ e₁' : Compiled} (h₁ : T.Pairs program e₁ e₁') :
    e₁'.id = e'.id ↔ e₁.id = e.id := by
  unfold Pairs at h h₁
  split at h
  · next hprogram =>
    rw [if_pos hprogram] at h₁
    exact T.id_eq_iff h h₁
  · next hprogram =>
    rw [if_neg hprogram] at h₁
    rw [h, h₁]

theorem ne_clause (hc : T.IsClause program c) (h : T.Pairs program e e') : e.id ≠ c.id := by
  rw [Pairs, if_pos hc.1] at h
  exact T.id_ne hc.2 h

end Pairs

theorem nodePaired_self {program : Nat} (h : program ≠ T.number) (n : Node Compiled) : T.NodePaired program n n :=
  Node.SelfPaired.paired fun _ _ _ _ => by rw [Pairs, if_neg h]

section Worlds

variable {w w' : World} (h : World.Replaced T.number T.first T.second w w')
include h

theorem program_eq (program : Nat) : (program = T.number ∧ w.program program = T.first ∧ w'.program program = T.second) ∨
    (program ≠ T.number ∧ w'.program program = w.program program) := by
  by_cases hprogram : program = T.number
  · subst hprogram
    refine .inl ⟨rfl, ?_, ?_⟩
    · rw [World.program, List.getD_eq_getElem?_getD, h.program, Option.getD_some]
    · rw [h.eq, World.program_withProgram, if_pos ⟨rfl, h.lt⟩]
  · refine .inr ⟨hprogram, ?_⟩
    rw [h.eq, World.program_withProgram, if_neg fun hk => hprogram hk.1.symm]

theorem paired_program (program : Nat) : T.NodePaired program (w.program program).main (w'.program program).main ∧
    ∀ name, Option.Rel (T.NodePaired program) ((w.program program).body? name) ((w'.program program).body? name) := by
  rcases program_eq h program with ⟨rfl, hfirst, hsecond⟩ | ⟨hne, heq⟩
  · have hpairs : T.Pairs T.number = T.paired := by
      funext e e'
      rw [Pairs, if_pos rfl]
    have hclause : T.IsClause T.number = T.leftOut := by
      funext e
      simp [IsClause]
    rw [hfirst, hsecond, NodePaired, hpairs, hclause]
    exact ⟨T.programs.main, T.programs.macros.lookup⟩
  · rw [heq]
    refine ⟨nodePaired_self hne _, fun name => ?_⟩
    cases (w.program program).body? name with
    | none => exact .none
    | some body => exact .some (nodePaired_self hne body)

end Worlds

variable (T) in
/-- Wherever a clause was come to, its expression was the default marker. -/
def Marked (st : State) : Prop := ∀ v ∈ st.views, T.IsClause v.frame.program v.expr → v.IsDefault

variable (T) in
def Lasts (st s : State) : Prop := T.Marked s → T.Marked st

namespace Lasts

theorem of_eq {st s : State} (h : s.views = st.views) : T.Lasts st s := fun hs => by
  rw [Marked, ← h]
  exact hs

theorem aloof : Aloof T.Lasts where
  trans h h' hs := h (h' hs)
  world _ _ _ := of_eq rfl
  views _ _ _ _ _ hs v hv := hs v (List.mem_cons_of_mem _ hv)
  apart _ _ _ _ _ := of_eq rfl
  failures _ _ := of_eq rfl

theorem lasting : Lasting T.Lasts :=
  aloof.lasting (fun _ _ => of_eq rfl) (fun _ _ => of_eq rfl) fun _ _ => .modify fun _ => of_eq rfl

end Lasts

variable (T) in
def watch : Watch where
  Fine := T.Marked
  lasting := Lasts.lasting
  heap _ _ := Lasts.of_eq rfl
  Storable _ := True
  storable _ _ _ _ := trivial

variable (T) in
/-- The activations of a program have the same switches open and remember paired expressions alike. -/
structure Recalls (program : Nat) (a a' : Activation) : Prop where
  switches : a'.switches = a.switches
  cache {e e' : Compiled} : T.Pairs program e e' → a'.cache.lookup e'.id = a.cache.lookup e.id

namespace Recalls

variable {program : Nat} {a a' : Activation}

theorem fresh (program : Nat) : T.Recalls program default default := ⟨rfl, fun _ => rfl⟩

theorem setCached (h : T.Recalls program a a') {e e' : Compiled} (he : T.Pairs program e e') (v : Option Value) :
    T.Recalls program { a with cache := setEntry a.cache e.id v } { a' with cache := setEntry a'.cache e'.id v } := by
  refine ⟨h.switches, fun he₁ => ?_⟩
  rw [lookup_setEntry, lookup_setEntry, h.cache he₁]
  simp only [he.id_eq_iff he₁]

theorem setClause (h : T.Recalls program a a') (hc : T.IsClause program c) (v : Option Value) :
    T.Recalls program { a with cache := setEntry a.cache c.id v } a' := by
  refine ⟨h.switches, fun he => ?_⟩
  simpa [he.ne_clause hc] using h.cache he

end Recalls

variable (T) in
/-- The activations that there are belong to these programs, in this order, and remember alike. -/
structure AllRecall (programs : List Nat) (as as' : List Activation) : Prop where
  length : as.length = programs.length
  length' : as'.length = programs.length
  recalls {i program : Nat} {a a' : Activation} : programs[i]? = some program → as[i]? = some a → as'[i]? = some a' →
    T.Recalls program a a'

namespace AllRecall

variable {programs : List Nat} {as as' : List Activation}
variable {program : Nat}

theorem getD (h : T.AllRecall programs as as') {i : Nat} (hi : programs[i]? = some program) :
    T.Recalls program (as.getD i {}) (as'.getD i {}) := by
  have hlt : i < programs.length := (List.getElem?_eq_some_iff.1 hi).1
  have ha : as[i]? = some (as.getD i {}) := by
    rw [List.getD_eq_getElem?_getD, List.getElem?_eq_getElem (h.length ▸ hlt), Option.getD_some]
  have ha' : as'[i]? = some (as'.getD i {}) := by
    rw [List.getD_eq_getElem?_getD, List.getElem?_eq_getElem (h.length' ▸ hlt), Option.getD_some]
  exact h.recalls hi ha ha'

theorem modify (h : T.AllRecall programs as as') {i : Nat} (hi : programs[i]? = some program)
    {f f' : Activation → Activation} (hf : ∀ a a', T.Recalls program a a' → T.Recalls program (f a) (f' a')) :
    T.AllRecall programs (as.modify i f) (as'.modify i f') := by
  refine ⟨by rw [List.length_modify, h.length], by rw [List.length_modify, h.length'], fun {j q a a'} hj ha ha' => ?_⟩
  rw [List.getElem?_modify] at ha ha'
  obtain ⟨b, hb, rfl⟩ := Option.map_eq_some_iff.1 ha
  obtain ⟨b', hb', rfl⟩ := Option.map_eq_some_iff.1 ha'
  have hrecalls := h.recalls hj hb hb'
  split
  · next heq =>
    subst heq
    obtain rfl : program = q := Option.some.inj (hi.symm.trans hj)
    exact hf _ _ hrecalls
  · exact hrecalls

theorem push (h : T.AllRecall programs as as') (program : Nat) :
    T.AllRecall (programs ++ [program]) (as ++ [default]) (as' ++ [default]) := by
  refine ⟨by simp [h.length], by simp [h.length'], fun {j q a a'} hj ha ha' => ?_⟩
  by_cases hlt : j < programs.length
  · rw [List.getElem?_append_left hlt] at hj
    rw [List.getElem?_append_left (h.length ▸ hlt)] at ha
    rw [List.getElem?_append_left (h.length' ▸ hlt)] at ha'
    exact h.recalls hj ha ha'
  · have hle := Nat.le_of_not_lt hlt
    rw [List.getElem?_append_right (h.length ▸ hle), List.getElem?_singleton] at ha
    rw [List.getElem?_append_right (h.length' ▸ hle), List.getElem?_singleton] at ha'
    split at ha
    · split at ha'
      · cases ha
        cases ha'
        exact .fresh q
      · cases ha'
    · cases ha

theorem pop {bs bs' : List Activation} (h : T.AllRecall programs as as')
    (hs : T.AllRecall (programs ++ [program]) bs bs') :
    T.AllRecall programs (bs.take as.length) (bs'.take as.length) := by
  have hlength : programs.length ≤ (programs ++ [program]).length := by simp
  rw [h.length]
  refine ⟨by rw [List.length_take, hs.length, Nat.min_eq_left hlength],
    by rw [List.length_take, hs.length', Nat.min_eq_left hlength], fun {j q a a'} hj ha ha' => ?_⟩
  have hlt : j < programs.length := (List.getElem?_eq_some_iff.1 hj).1
  rw [List.getElem?_take_of_lt hlt] at ha ha'
  exact hs.recalls (by rw [List.getElem?_append_left hlt, hj]) ha ha'

end AllRecall

variable (T) in
/-- One run has the first program, the other the second, and so have the activations. -/
def company (programs : List Nat) : Company where
  worlds := World.Replaced T.number T.first T.second
  bisimulation := World.Replaced.bisimulation ⟨T.programs.filename, T.source, T.programs.settings, T.programs.macros.map_fst⟩
  heap _ h := ⟨h.program, by rw [h.eq]; rfl⟩
  activations := T.AllRecall programs
  length h := h.length'.trans h.length.symm
  pinned := []
  sites := T.sites
  sites_refl := T.sites_refl
  unbound _ h := absurd h List.not_mem_nil

mutual

/-- The frames are the same but for fills, and their activation belongs to their program. -/
inductive FramePaired (T : Twins) (programs : List Nat) : Frame → Frame → Prop where
  | intro {frame : Frame} {slots : Fills} :
      programs[frame.activation]? = some frame.program →
      FillsPaired T programs frame.slots slots → FramePaired T programs frame { frame with slots }

/-- The fills are nodes that are the same but for the clause, with frames that are the same but for fills. -/
inductive FillsPaired (T : Twins) (programs : List Nat) :
    Fills → Fills → Prop where
  | nil : FillsPaired T programs [] []
  | cons {name : Bytes} {n n' : Node Compiled} {frame frame' : Frame} {ss ss' : Fills} :
      T.NodePaired frame.program n n' → FramePaired T programs frame frame' → FillsPaired T programs ss ss' →
      FillsPaired T programs ((name, n, frame) :: ss) ((name, n', frame') :: ss')

end

section Frames

variable {programs : List Nat}

mutual

/-- Frames go together whatever activations are opened after their own. -/
theorem FramePaired.mono {frame frame' : Frame} (more : List Nat) :
    FramePaired T programs frame frame' → FramePaired T (programs ++ more) frame frame'
  | .intro hprogram hfills => by
    refine .intro ?_ (hfills.mono more)
    rw [List.getElem?_append_left (List.getElem?_eq_some_iff.1 hprogram).1, hprogram]

theorem FillsPaired.mono {ss ss' : Fills} (more : List Nat) :
    FillsPaired T programs ss ss' → FillsPaired T (programs ++ more) ss ss'
  | .nil => .nil
  | .cons hn hframe hss => .cons hn (hframe.mono more) (hss.mono more)

end

variable (T) in
/-- Two fills go together: their nodes do, and the frames they are rendered in. -/
def FillPaired (programs : List Nat) (fill fill' : Node Compiled × Frame) : Prop :=
  T.NodePaired fill.2.program fill.1 fill'.1 ∧ FramePaired T programs fill.2 fill'.2

theorem FillsPaired.lookup {ss ss' : Fills} (h : FillsPaired T programs ss ss') (name : Bytes) :
    Option.Rel (T.FillPaired programs) (ss.lookup name) (ss'.lookup name) :=
  match h with
  | .nil => .none
  | .cons hn hframe hss => by
    rw [List.lookup_cons, List.lookup_cons]
    split
    · exact .some ⟨hn, hframe⟩
    · exact hss.lookup name

theorem FillsPaired.insert {ss ss' : Fills} (h : FillsPaired T programs ss ss') (name : Bytes)
    {fill fill' : Node Compiled × Frame} (hfill : T.FillPaired programs fill fill') :
    FillsPaired T programs (Assoc.insert ss name fill) (Assoc.insert ss' name fill') := by
  cases h with
  | nil => exact .cons hfill.1 hfill.2 .nil
  | cons hn hframe hss =>
    rw [Assoc.insert, Assoc.insert]
    split
    · exact .cons hfill.1 hfill.2 hss
    · exact .cons hn hframe (hss.insert name hfill)

theorem FillsPaired.insertAll {ss ss' entries entries' : Fills}
    (h : FillsPaired T programs ss ss') (hentries : FillsPaired T programs entries entries') :
    FillsPaired T programs (Assoc.insertAll ss entries) (Assoc.insertAll ss' entries') :=
  match hentries with
  | .nil => h
  | .cons hn hframe hrest => (h.insert _ ⟨hn, hframe⟩).insertAll hrest

theorem fillsPaired_passedSlots {program : Nat} {frame frame' : Frame} (hprogram : frame.program = program)
    (hframe : FramePaired T programs frame frame') {fills fills' : List (Bytes × Node Compiled)}
    (h : Node.SlotsPaired (T.Pairs program) (T.IsClause program) fills fills') (extend : Bool) :
    FillsPaired T programs (passedSlots frame fills extend) (passedSlots frame' fills' extend) := by
  have hown : FillsPaired T programs (Assoc.ofEntries (fills.map fun s => (s.1, s.2, frame)))
      (Assoc.ofEntries (fills'.map fun s => (s.1, s.2, frame'))) := by
    refine FillsPaired.insertAll .nil ?_
    subst hprogram
    induction fills generalizing fills' with
    | nil =>
      cases h
      exact .nil
    | cons s ss ih =>
      cases h with
      | cons hn hs => exact .cons hn hframe (ih hs)
  unfold passedSlots
  cases extend with
  | false => exact hown
  | true =>
    obtain ⟨_, hfills⟩ := hframe
    exact hown.insertAll hfills

theorem fits {frame frame' : Frame} (h : FramePaired T programs frame frame') :
    (T.company programs).Fits T.watch frame frame' (T.Pairs frame.program) := by
  obtain ⟨hprogram, _⟩ := h
  exact {
    program := rfl
    settings := rfl
    domain := rfl
    evaluator := fun he => he.evaluator
    site := fun he => he.site
    recalled := fun he has => (has.getD hprogram).cache he
    cached := fun he _ has => has.modify hprogram fun _ _ ha => ha.setCached he _
    switches := fun has => (has.getD hprogram).switches
    switched := fun id v _ _ has => has.modify hprogram fun _ _ ha => ⟨by rw [ha.switches], ha.cache⟩
    opened := fun id _ _ _ _ has => has.modify hprogram fun _ _ ha => ⟨ha.switches, ha.cache⟩ }

end Frames

/-! ### Clauses and calls -/

variable (T) in
/-- What is rendered through the continuation goes side by side. -/
structure Calls (call : Continuation) : Prop where
  keeps (frame : Frame) (n : Node Compiled) : Keeps T.watch.Lasts (call frame n)
  mirrors {programs : List Nat} {frame frame' : Frame} {n n' : Node Compiled} : FramePaired T programs frame frame' →
    T.NodePaired frame.program n n' → Mirrors T.watch (T.company programs) (call frame n) (call frame' n')

section Nodes

variable {call : Continuation} {programs : List Nat} {frame frame' : Frame}

theorem related_setClause (hframe : programs[frame.activation]? = some frame.program)
    (hc : T.IsClause frame.program c) (v : Option Value) {st st' : State} (h : (T.company programs).Related st st') :
    (T.company programs).Related (setCached frame c.id v st) st' := by
  obtain @⟨_, _, _, _, as, hw, hscope, has⟩ := h
  refine .intro hw hscope ?_
  have hmodify : T.AllRecall programs _ (as.modify frame.activation id) :=
    has.modify hframe (f := fun a => { a with cache := setEntry a.cache c.id v }) fun _ _ ha => ha.setClause hc v
  rwa [List.modify_id] at hmodify

theorem mirrors_clause (hcall : T.Calls call) (hframe : FramePaired T programs frame frame') {e : Compiled}
    (he : T.IsClause frame.program e) {kept kept' : Node Compiled} (raw translated : Bool)
    (hkept : Mirrors T.watch (T.company programs) (node call frame kept) (node call frame' kept')) :
    Mirrors T.watch (T.company programs) (node call frame (.substitution e kept raw translated))
      (node call frame' kept') := by
  have hkeeps : ∀ n, Keeps T.watch.Lasts (node call frame n) := fun n =>
    (T.watch.lasting.rendering hcall.keeps).keeps_node n frame fun _ _ => trivial
  have hopen : programs[frame.activation]? = some frame.program := by
    obtain ⟨hprogram, _⟩ := hframe
    exact hprogram
  refine ⟨hkeeps _, fun st st' r s hst hrun hs => ?_⟩
  obtain ⟨r₁, s₁, hfresh, hactivations, hviews, hend⟩ := exists_of_run_cache hrun
  have hs₁ : T.Marked s₁ := by
    rcases hend with ⟨_, _, _, rfl⟩ | ⟨v, s₂, _, hbody, rfl⟩
    · exact Lasts.of_eq rfl hs
    · have hs₂ : T.Marked s₂ := Lasts.of_eq rfl hs
      exact Lasts.of_eq (s := setCached frame e.id (some v) s₁) rfl (hkeeps _ _ _ _ hbody hs₂)
  have hdefault : (e.evaluator.eval st.vars).run st.world = (.ok .default, st.world) :=
    hs₁ ⟨frame, e, st.vars, st.assigned, st.world⟩ (by rw [hviews]; exact List.mem_cons_self) he
  rw [run_evaluateFresh, hdefault] at hfresh
  obtain ⟨rfl, heq⟩ : Except.ok .default = r₁ ∧ { st with events := _, views := _ } = s₁ := by
    simpa using hfresh
  have hst₁ : (T.company programs).Related s₁ st' := heq ▸ hst.journal _ _
  obtain ⟨_, hfailed, _⟩ | ⟨v, s₂, hv, hbody, rfl⟩ := hend
  · cases hfailed
  · cases hv
    have hlt : frame.activation < s₁.activations.length := by
      obtain ⟨_, _, has⟩ := hst₁
      rw [has.length]
      exact (List.getElem?_eq_some_iff.1 hopen).1
    rw [run_condition_isDefault (remembers_setCached hlt e .default)] at hbody
    -- What the template has is rendered with the marker remembered, which the other run does not need.
    have hstart := (related_setClause hopen he (some .default) hst₁).journal
      (.recalled e .default :: (setCached frame e.id (some .default) s₁).events) s₁.views
    have hs₂ : T.Marked s₂ := Lasts.of_eq rfl hs
    obtain ⟨r', s', hrun', hr, hs'⟩ := hkept.mirrors _ _ _ _ hstart hbody hs₂
    exact ⟨r', s', hrun', hr, related_setClause hopen he _ hs'⟩

theorem mirrors_renderBody (hcall : T.Calls call) {program : Nat} (bound : Nat) {body body' : Node Compiled}
    (hbody : T.NodePaired program body body') {slots slots' : Fills}
    (hslots : FillsPaired T programs slots slots') :
    Mirrors T.watch (T.company programs) (renderBody call program bound body slots)
      (renderBody call program bound body' slots') := by
  refine Mirrors.renderBody (P := T.company programs) (Q := T.company (programs ++ [program])) program bound
    (fun _ _ => Iff.rfl) rfl (fun _ _ has => has.push program) (fun _ _ _ _ has hbs => has.pop hbs)
      (fun _ _ _ _ hb => by cases hb)
    (fun frame => hcall.keeps frame body) fun st st' hst => hcall.mirrors (.intro ?_ (hslots.mono [program])) hbody
  obtain ⟨_, _, has⟩ := hst
  have hlength : st.activations.length = programs.length := has.length
  simp [bodyFrame, hlength]

theorem mirrors_renderMacro (hcall : T.Calls call) {slots slots' : Fills}
    (hslots : FillsPaired T programs slots slots') (m : Value) :
    Mirrors T.watch (T.company programs) (renderMacro call slots m) (renderMacro call slots' m) := by
  refine Mirrors.renderMacro (P := T.company programs) hcall.keeps ⟨?_, ?_, fun name => ?_⟩ m
  · exact fun program bound hw => mirrors_renderBody hcall bound (paired_program hw program).1 hslots
  · intro w w' program bound name hw
    have hbody := (paired_program hw program).2 name
    generalize (w.program program).body? name = body at hbody
    generalize (w'.program program).body? name = body' at hbody
    cases hbody with
    | none => exact .none
    | some hbody => exact .some (mirrors_renderBody hcall bound hbody hslots)
  · have hfill := hslots.lookup name
    generalize slots.lookup name = fill at hfill
    generalize slots'.lookup name = fill' at hfill
    cases hfill with
    | none => exact .none
    | some hfill => exact .some (hcall.mirrors hfill.2 hfill.1)

theorem mirrors_callMacro (hcall : T.Calls call) (hframe : FramePaired T programs frame frame')
    {fills fills' : List (Bytes × Node Compiled)}
    (h : Node.SlotsPaired (T.Pairs frame.program) (T.IsClause frame.program) fills fills') (extend : Bool) (m : Value) :
    Mirrors T.watch (T.company programs) (callMacro call frame fills extend m)
      (callMacro call frame' fills' extend m) :=
  .callMacro extend m (fun _ _ _ hb => by cases hb)
    (mirrors_renderMacro hcall (fillsPaired_passedSlots rfl hframe h extend) m)

theorem mirrors_renderSlot (hcall : T.Calls call) (hframe : FramePaired T programs frame frame') (name : Bytes)
    {body body' : Run Unit} (hbody : Mirrors T.watch (T.company programs) body body') :
    Mirrors T.watch (T.company programs) (renderSlot call frame name body) (renderSlot call frame' name body') := by
  obtain ⟨_, hfills⟩ := hframe
  have hfill := hfills.lookup name
  unfold renderSlot
  dsimp only
  generalize frame.slots.lookup name = fill at hfill
  generalize List.lookup name _ = fill' at hfill
  cases hfill with
  | none => exact hbody
  | some hfill => exact .renderFill (hcall.mirrors hfill.2 hfill.1)

theorem free (name : Bytes) : (T.company programs).Free name := fun _ hb => by cases hb

theorem FramePaired.inDomain (h : FramePaired T programs frame frame') (domain : Bytes) :
    FramePaired T programs { frame with domain } { frame' with domain } := by
  obtain ⟨hprogram, hfills⟩ := h
  exact .intro hprogram hfills

mutual

theorem mirrors_node (hcall : T.Calls call) {program : Nat} {n n' : Node Compiled} {frame frame' : Frame}
    (hframe : FramePaired T programs frame frame') (hprogram : frame.program = program) : T.NodePaired program n n' →
    Mirrors T.watch (T.company programs) (node call frame n) (node call frame' n')
  | .absent => .pure _
  | .omitted => .pure _
  | .text s => .write s
  | .interpolation _ hps => .writeParts (hprogram ▸ fits hframe) hps
  | .attr ha => .renderAttribute (hprogram ▸ fits hframe) ha
  | .attributeMap exclude he => .renderAttributeMap (hprogram ▸ fits hframe) he exclude
  | .content raw translated he =>
    .renderContent (hprogram ▸ fits hframe) he raw translated
  | .sequence hs => mirrors_nodeList hcall hframe hprogram hs
  | .element _ hstart hbody hstop =>
    .bind (mirrors_node hcall hframe hprogram hstart) fun _ => .bind (mirrors_node hcall hframe hprogram hbody) fun _ =>
      mirrors_node hcall hframe hprogram hstop
  | .startTag _ _ _ hs =>
    .bind (.write _) fun _ => .bind (mirrors_nodeList hcall hframe hprogram hs) fun _ => .write _
  | .condition htest hyes hno => by
    have hyes := mirrors_node hcall hframe hprogram hyes
    have hno := mirrors_node hcall hframe hprogram hno
    refine .bind (.operand (hprogram ▸ fits hframe) htest) fun v => .bind (.truth v) fun b => ?_
    split
    · exact hyes
    · exact hno
  | .loop _ whitespace he hbody =>
    .renderLoop (hprogram ▸ fits hframe) he (fun name _ => free name) whitespace
      (mirrors_node hcall hframe hprogram hbody)
  | .define has hbody =>
    .renderDefine (hprogram ▸ fits hframe) has (fun _ _ name _ => free name) (mirrors_node hcall hframe hprogram hbody)
  | .cache hes hbody =>
    .renderCache (hprogram ▸ fits hframe) hes (mirrors_node hcall hframe hprogram hbody)
  | .translate msgid hbody =>
    .renderTranslate (hprogram ▸ fits hframe) msgid (mirrors_node hcall hframe hprogram hbody)
  | .name name hbody => .renderName name (mirrors_node hcall hframe hprogram hbody)
  | .domain domain hbody => by
    have hmirrors := mirrors_node hcall (hframe.inDomain domain) hprogram hbody
    exact hmirrors
  | .onError hbody hfallback =>
    .renderOnError (mirrors_node hcall hframe hprogram hbody) (mirrors_node hcall hframe hprogram hfallback)
  | .macroDef _ hbody | .fillSlot _ hbody | .module _ hbody => by
    have hmirrors := mirrors_node hcall hframe hprogram hbody
    exact hmirrors
  | .useInternal _ extend hs => by
    refine .look fun st st' ⟨hw⟩ => ?_
    dsimp only
    rw [(fits hframe).program, (hw.program _).filename]
    exact mirrors_callMacro hcall hframe (hprogram ▸ hs) extend _
  | .useExternal extend he hs => by
    refine .bind (.evaluate (hprogram ▸ fits hframe) he) fun v => ?_
    split
    · exact mirrors_callMacro hcall hframe (hprogram ▸ hs) extend v
    · exact .failAt he.site _
  | .defineSlot name hbody =>
    mirrors_renderSlot hcall hframe name (mirrors_node hcall hframe hprogram hbody)
  | .switch id he hbody =>
    .renderSwitch (hprogram ▸ fits hframe) id he (mirrors_node hcall hframe hprogram hbody)
  | .case id he hbody =>
    .renderCase (hprogram ▸ fits hframe) id he (mirrors_node hcall hframe hprogram hbody)
  | .kept raw translated he hkept =>
    mirrors_clause hcall hframe (hprogram ▸ he) raw translated (mirrors_node hcall hframe hprogram hkept)

theorem mirrors_nodeList (hcall : T.Calls call) {program : Nat} {ns ns' : List (Node Compiled)} {frame frame' : Frame}
    (hframe : FramePaired T programs frame frame') (hprogram : frame.program = program) :
    Node.AllPaired (T.Pairs program) (T.IsClause program) ns ns' →
    Mirrors T.watch (T.company programs) (nodeList call frame ns) (nodeList call frame' ns')
  | .nil => .pure _
  | .cons h hs =>
    .bind (mirrors_node hcall hframe hprogram h) fun _ => mirrors_nodeList hcall hframe hprogram hs

end

end Nodes

/-- Whatever is called is rendered side by side, however deeply calls are nested. -/
theorem calls_toDepth (depth : Nat) : T.Calls (toDepth depth) := by
  refine ⟨T.watch.lasting.keeps_toDepth depth, ?_⟩
  induction depth with
  | zero => exact fun _ _ => .exceeded
  | succ depth ih =>
    exact fun hframe hn => mirrors_node ⟨T.watch.lasting.keeps_toDepth depth, ih⟩ hframe rfl hn

/-! ### Starts -/

theorem mirrors_bindDefaults (programs : List Nat) (program bound : Nat) (builtins : Assoc Value) :
    Mirrors T.watch (T.company programs) (bindDefaults program bound builtins) (bindDefaults program bound builtins) where
  lasts st r s hrun := by
    cases hrun
    exact Lasts.of_eq rfl
  mirrors st st' r s hst hrun _ := by
    obtain ⟨hw, hscope, has⟩ := hst
    cases hrun
    have hworlds := (T.company programs).heap st.world.heap.newTable.2 hw
    obtain ⟨_, rfl⟩ := hw
    refine ⟨_, _, rfl, .ok _, ?_⟩
    dsimp only
    rw [hscope.2.settings?]
    exact .intro hworlds ⟨nofun, hscope.2⟩ has

theorem mirrors_renderEntry (depth : Nat) (programs : List Nat) (program bound : Nat) (name : Bytes)
    (builtins : Assoc Value) :
    Mirrors T.watch (T.company programs) (renderEntry (toDepth depth) program bound name builtins)
      (renderEntry (toDepth depth) program bound name builtins) := by
  refine .bind (.change (fun _ => Lasts.of_eq rfl) ?_) fun _ => ?_
  · rintro st _ ⟨hw, hscope, has⟩
    have hcontains : ∀ {r r' : Remote}, r'.get? Remote.settingsKey = r.get? Remote.settingsKey →
        r'.contains Remote.settingsKey = r.contains Remote.settingsKey := fun h => by rw [Assoc.contains, Assoc.contains, h]
    dsimp only
    rw [hcontains (hscope.2.get?_eq (by decide))]
    refine .intro hw ⟨hscope.1, ?_⟩ has
    dsimp only
    split
    · exact hscope.2
    · exact hscope.2.insert (.refl _)
  refine .bind (mirrors_bindDefaults programs program bound builtins) fun _ => ?_
  refine .inspect (.get_bind fun st _ _ => ?_) fun st st' hst => ?_
  · have hkeeps := T.watch.lasting.renderBody (calls_toDepth depth).keeps program bound
    dsimp only
    split
    · exact hkeeps _ _ _ _ _
    · split
      · exact hkeeps _ _ _ _ _
      · exact T.watch.lasting.throw _ _ _ _
  · obtain @⟨w, _, _, _, _, hw, _, _⟩ := hst
    have hbodies := paired_program hw program
    have hbody := hbodies.2 name
    dsimp only
    split
    · exact mirrors_renderBody (calls_toDepth depth) bound hbodies.1 .nil
    · generalize (st.world.program program).body? name = body at hbody
      generalize (w.program program).body? name = body' at hbody
      cases hbody with
      | none => exact .throw (.refl _)
      | some hbody => exact mirrors_renderBody (calls_toDepth depth) bound hbody .nil

end Twins

/-- How a render starts: at an entry point of a program, or with a value that is called as a macro. -/
inductive Start where
  | entry (program bound : Nat) (name : Bytes) (builtins : Assoc Value)
  | called (m : Value)

def Start.render (depth : Nat) : Start → Run Unit
  | .entry program bound name builtins => renderEntry (toDepth depth) program bound name builtins
  | .called m => renderMacro (toDepth depth) [] m

theorem Twins.mirrors_start {T : Twins} (depth : Nat) (start : Start) :
    Mirrors T.watch (T.company []) (start.render depth) (start.render depth) := by
  cases start with
  | entry program bound name builtins => exact mirrors_renderEntry depth [] program bound name builtins
  | called m => exact mirrors_renderMacro (calls_toDepth depth) .nil m

/-- A run of the first program has its like with the second in its place. -/
theorem Twins.exists_run (T : Twins) {st s : State} {depth : Nat} {start : Start} {result : Except Failure Unit}
    (hprogram : st.world.programs[T.number]? = some T.first) (hactivations : st.activations = [])
    (hrun : (start.render depth).run st = some (result, s)) (hmarked : T.Marked s) :
    ∃ result' s', (start.render depth).run { st with world := st.world.withProgram T.number T.second } = some (result', s') ∧
      Ended T.sites result result' ∧ (T.company []).Related s s' := by
  have hfresh : T.AllRecall [] st.activations st.activations := by
    rw [hactivations]
    exact ⟨rfl, rfl, fun hi => by cases hi⟩
  exact (mirrors_start depth start).mirrors _ _ _ _ (.intro ⟨hprogram, rfl⟩ ⟨nofun, .refl _⟩ hfresh) hrun hmarked

end Render

end PageTemplate
