import PageTemplate.Proofs.Assoc
import PageTemplate.Proofs.Render.Construct

/-!
Slots along chains of macro calls. A call passes fills to the macro, and the macro passes them on if it makes an
extending call, so that a fill may come from a caller far outside. The fills that reach a macro are kept in a table made
anew with every call; `lookup_slots` says what it holds in terms of the callers alone. The main statement says what is
rendered in the place of a slot.
-/

namespace PageTemplate

namespace Assoc

variable {α : Type}

theorem nodup_keys_insertAll {m : Assoc α} (h : m.keys.Nodup) (entries : Assoc α) :
    (m.insertAll entries).keys.Nodup := by
  induction entries generalizing m with
  | nil => exact h
  | cons e entries ih => exact ih (nodup_keys_insert h e.1 e.2)

end Assoc

namespace Render

open Run

variable {frame : Frame} {m : Value}

/-- The fill that is written for a slot in a call, with the frame it is written in. The last one counts. -/
def writtenFill (frame : Frame) (fills : List (Bytes × Node Compiled)) (s : Bytes) :
    Option (Node Compiled × Frame) :=
  (fills.reverse.lookup s).map fun n => (n, frame)

theorem lookup_reverse_map (frame : Frame) (fills : List (Bytes × Node Compiled)) (s : Bytes) :
    List.lookup s (fills.map fun e => (e.1, e.2, frame)).reverse = writtenFill frame fills s := by
  rw [← List.map_reverse, writtenFill]
  generalize fills.reverse = fills
  induction fills with
  | nil => rfl
  | cons e fills ih =>
    rw [List.map_cons, List.lookup_cons, List.lookup_cons, ih]
    split <;> rfl

theorem lookup_passedSlots (hslots : (Assoc.keys frame.slots).Nodup)
    (fills : List (Bytes × Node Compiled)) (extend : Bool) (s : Bytes) :
    (passedSlots frame fills extend).lookup s =
      (if extend then frame.slots.lookup s else none).or (writtenFill frame fills s) := by
  have hown : (Assoc.ofEntries (fills.map fun e => (e.1, e.2, frame))).get? s = writtenFill frame fills s := by
    rw [Assoc.ofEntries, Assoc.get?_insertAll_reverse, lookup_reverse_map]
    exact Option.or_none
  unfold passedSlots
  cases extend with
  | false => exact hown
  | true =>
    have hboth := Assoc.get?_insertAll hslots (Assoc.ofEntries (fills.map fun e => (e.1, e.2, frame))) s
    rw [hown] at hboth
    exact hboth

theorem nodup_passedSlots (frame : Frame) (fills : List (Bytes × Node Compiled)) (extend : Bool) :
    (Assoc.keys (passedSlots frame fills extend)).Nodup := by
  have hown : (Assoc.ofEntries (fills.map fun e => (e.1, e.2, frame))).keys.Nodup :=
    Assoc.nodup_keys_insertAll (m := []) .nil _
  unfold passedSlots
  cases extend with
  | false => exact hown
  | true => exact Assoc.nodup_keys_insertAll hown _

/-- A macro is a body of a program with settings. A template is compiled first, which may change the world. -/
inductive Opens (w : World) : Value → Nat → Nat → Node Compiled → World → Prop where
  | named {program : Nat} {filename name : Bytes} {body : Node Compiled} :
      (w.program program).body? name = some body →
      Opens w (.namedMacro program filename name) program (w.program program).settings body w
  | program {program bound : Nat} :
      Opens w (.program program bound) program bound (w.program program).main w
  | template {id program : Nat} {filename : Bytes} {w' : World} :
      w.cook id = (.ok program, w') →
      Opens w (.template id filename) program (w'.template id).settings (w'.program program).main w'

theorem run_renderMacro_of_opens {program bound : Nat} {body : Node Compiled} {st : State} {w : World}
    (h : Opens st.world m program bound body w) (call : Continuation)
    (slots : Fills) :
    (renderMacro call slots m).run st =
      (renderBody call program bound body slots).run { st with world := w } := by
  generalize hw : st.world = w₀ at h
  cases h with
  | named hbody =>
    subst hw
    rw [renderMacro, run_get_bind]
    simp only [hbody]
  | program =>
    subst hw
    rw [renderMacro, run_get_bind]
  | template hcook =>
    subst hw
    rw [renderMacro, run_get_bind]
    simp only [hcook]
    rfl

/-- A call of a macro: its node, rendered in a frame from a state, renders the body in its own frame from another state.
-/
structure Call where
  frame : Frame
  node : Node Compiled
  state : State
  callee : Frame
  body : Node Compiled
  start : State

variable {c : Call}

namespace Call

def fills (c : Call) : List (Bytes × Node Compiled) :=
  match c.node with
  | .useInternal _ fills _ | .useExternal _ fills _ => fills
  | _ => []

/-- Whether the call passes on the fills that its caller was given. -/
def extends? (c : Call) : Bool :=
  match c.node with
  | .useInternal _ _ extend | .useExternal _ _ extend => extend
  | _ => false

def fill? (c : Call) (s : Bytes) : Option (Node Compiled × Frame) := writtenFill c.frame c.fills s

/-- What the call refers to, and the state that this is found in. -/
inductive Refers (frame : Frame) (st : State) : Node Compiled → Value → State → Prop where
  | internal {name : Bytes} {fills : List (Bytes × Node Compiled)} {extend : Bool} :
      Refers frame st (.useInternal name fills extend)
        (.namedMacro frame.program (st.world.program frame.program).filename name) st
  | external {e : Compiled} {fills : List (Bytes × Node Compiled)} {extend : Bool} {v : Value} {st' : State} :
      (evaluate frame e).run st = some (.ok v, st') → isMacro v = true →
      Refers frame st (.useExternal e fills extend) v st'

/-- The call is what rendering its node comes to. -/
structure Made (c : Call) : Prop where
  opens : ∃ m st program bound w, Refers c.frame c.state c.node m st ∧
    Opens st.world m program bound c.body w ∧
    c.callee = bodyFrame program bound (passedSlots c.frame c.fills c.extends?) { st with world := w } ∧
    c.start = bodyStart program { st with world := w }

theorem Made.slots_eq (h : c.Made) : c.callee.slots = passedSlots c.frame c.fills c.extends? := by
  obtain ⟨m, st, program, bound, w, _, _, hcallee, _⟩ := h.opens
  rw [hcallee]
  rfl

theorem run_node_of_refers {st st' : State} {n : Node Compiled}
    (h : Refers frame st n m st') (call : Continuation) (c : Call) (hnode : c.node = n) :
    (Render.node call frame n).run st = (callMacro call frame c.fills c.extends? m).run st' := by
  unfold fills extends?
  rw [hnode]
  cases h with
  | internal => rw [Render.node, run_get_bind]
  | external heval hmacro =>
    rw [Render.node, run_bind, heval]
    simp only [Option.bind_some, hmacro, if_true]

theorem Made.run_eq (h : c.Made) :
    ∃ leave : State → State, ∀ call : Continuation, (Render.node call c.frame c.node).run c.state =
      ((call c.callee c.body).run c.start).map fun p => (p.1, leave p.2) := by
  obtain ⟨m, st, program, bound, w, hrefers, hopens, hcallee, hstart⟩ := h.opens
  refine ⟨fun st' => { st' with
    vars := st'.remote.mergeInto st.vars
    named := st.named
    activations := st'.activations.take st.activations.length }, fun call => ?_⟩
  rw [run_node_of_refers hrefers call c rfl, run_callMacro, run_renderMacro_of_opens hopens, run_renderBody,
    ← hcallee, ← hstart, Option.map_map]
  rfl

end Call

/-- The frame belongs to the same rendering of a body: at most the translation domain is another. -/
def SameBody (f g : Frame) : Prop := f = { g with domain := f.domain }

theorem SameBody.trans {f g h : Frame} (hfg : SameBody f g) (hgh : SameBody g h) : SameBody f h := by
  rw [SameBody, hfg, hgh]

/-- A chain of calls, last first: each is made in the body that the one before it renders. -/
inductive Chain (f₀ : Frame) (n₀ : Node Compiled) : List Call → Frame → Node Compiled → Prop where
  | start : Chain f₀ n₀ [] f₀ n₀
  | call {calls : List Call} {g : Frame} {body : Node Compiled} {c : Call} :
      Chain f₀ n₀ calls g body → c.node ∈ body.all → SameBody c.frame g → c.Made →
      Chain f₀ n₀ (c :: calls) c.callee c.body

/-- The calls whose fills reach the last macro: all from the last one on that does not extend. -/
def reaching : List Call → List Call
  | [] => []
  | c :: calls => if c.extends? then c :: reaching calls else [c]

/-- The fill that reaches the last macro of a chain for a slot: the one that comes from farthest outside. -/
def suppliedFill (f₀ : Frame) (calls : List Call) (s : Bytes) : Option (Node Compiled × Frame) :=
  (if calls.all (·.extends?) then f₀.slots.lookup s else none).or
    ((reaching calls).reverse.findSome? (·.fill? s))

@[simp] theorem suppliedFill_nil (f₀ : Frame) (s : Bytes) : suppliedFill f₀ [] s = f₀.slots.lookup s := Option.or_none

@[simp] theorem suppliedFill_cons (f₀ : Frame) (c : Call) (calls : List Call) (s : Bytes) :
    suppliedFill f₀ (c :: calls) s =
      (if c.extends? then suppliedFill f₀ calls s else none).or (c.fill? s) := by
  unfold suppliedFill
  cases hextends : c.extends? with
  | false => simp [reaching, hextends]
  | true =>
    have hreach : reaching (c :: calls) = c :: reaching calls := by simp [reaching, hextends]
    have hone : [c].findSome? (·.fill? s) = c.fill? s := by simp
    rw [hreach, List.reverse_cons, List.findSome?_append, List.all_cons, hextends, hone, ← Option.or_assoc]
    rfl

namespace Chain

variable {f₀ g : Frame} {n₀ body : Node Compiled} {calls : List Call}

theorem nodup_slots (h : Chain f₀ n₀ calls g body) (h₀ : (Assoc.keys f₀.slots).Nodup) :
    (Assoc.keys g.slots).Nodup := by
  cases h with
  | start => exact h₀
  | call _ _ _ hmade =>
    rw [hmade.slots_eq]
    exact nodup_passedSlots _ _ _

theorem lookup_slots (h : Chain f₀ n₀ calls g body) (h₀ : (Assoc.keys f₀.slots).Nodup) (s : Bytes) :
    g.slots.lookup s = suppliedFill f₀ calls s := by
  induction h with
  | start => exact (suppliedFill_nil f₀ s).symm
  | @call calls g body c hchain _ hsame hmade ih =>
    have hslots : c.frame.slots = g.slots := by rw [hsame]
    have hnodup : (Assoc.keys c.frame.slots).Nodup := hslots ▸ hchain.nodup_slots h₀
    rw [hmade.slots_eq, lookup_passedSlots hnodup, hslots, ih, suppliedFill_cons]
    rfl

theorem of_append {inner outer : List Call} (h : Chain f₀ n₀ (inner ++ c :: outer) g body) :
    ∃ g' body', Chain f₀ n₀ outer g' body' ∧ SameBody c.frame g' ∧ c.Made := by
  induction inner generalizing g body with
  | nil =>
    cases h with
    | call hchain _ hsame hmade => exact ⟨_, _, hchain, hsame, hmade⟩
  | cons _ inner ih =>
    cases h with
    | call hchain _ _ _ => exact ih hchain

end Chain

/-- A slot is filled with what is supplied for it, in the frame of its supplier, or else with its own body. -/
def FillsSlots (frame : Frame) (supplied : Bytes → Option (Node Compiled × Frame)) : Prop :=
  ∀ (call : Continuation) (s : Bytes) (own : Node Compiled) (st : State),
    (node call frame (.defineSlot s own)).run st =
      match supplied s with
      | some (fill, supplier) =>
        ((call supplier fill).run { st with named := none }).map fun p =>
          (p.1, { p.2 with vars := st.vars, named := st.named })
      | none => (node call frame own).run st

theorem fillsSlots_of_lookup {supplied : Bytes → Option (Node Compiled × Frame)}
    (h : ∀ s, frame.slots.lookup s = supplied s) : FillsSlots frame supplied := by
  intro call s own st
  rw [node, renderSlot, h s]
  cases supplied s with
  | none => rfl
  | some fill => exact run_renderFill call fill st

theorem Chain.fillsSlots {f₀ g f : Frame} {n₀ body : Node Compiled} {calls : List Call}
    (h : Chain f₀ n₀ calls g body) (h₀ : (Assoc.keys f₀.slots).Nodup) (hsame : SameBody f g) :
    FillsSlots f (suppliedFill f₀ calls) := by
  refine fillsSlots_of_lookup fun s => ?_
  have hslots : f.slots = g.slots := by rw [hsame]
  rw [hslots, h.lookup_slots h₀]

end Render

end PageTemplate
