import PageTemplate.Proofs.Building
import PageTemplate.Proofs.Render.Effect

/-!
What is rendered in which frame. A call hands the macro the fills that stand in the call, and an extending call also
those that the caller was given, each with its frame; so what may be rendered in a frame and in those of its fills is
kept from one call to the next. `Handing.toDepth` is the induction over calls.
-/

namespace PageTemplate.Render

open Run (Keeps)

variable {frame : Frame} {fills : List (Bytes × Node Compiled)}

/-- The body is that of a program or of one of its macros. -/
def IsBodyOf (p : Program) (body : Node Compiled) : Prop := body = p.main ∨ ∃ name, p.body? name = some body

theorem mem_passedSlots {extend : Bool}
    {f : Bytes × Node Compiled × Frame} (hf : f ∈ passedSlots frame fills extend) :
    (∃ g ∈ fills, f = (g.1, g.2, frame)) ∨ f ∈ frame.slots := by
  have hown : f ∈ Assoc.ofEntries (fills.map fun s => (s.1, s.2, frame)) → ∃ g ∈ fills, f = (g.1, g.2, frame) := by
    intro hf
    rcases Assoc.mem_or_mem_of_mem_insertAll hf with hf | hf
    · cases hf
    · obtain ⟨g, hg, rfl⟩ := List.mem_map.1 hf
      exact ⟨g, hg, rfl⟩
  rw [passedSlots] at hf
  split at hf
  · exact (Assoc.mem_or_mem_of_mem_insertAll hf).imp_left hown
  · exact .inl (hown hf)

/-- A relation between the states before and after a run, where frames have to be right for what is rendered in them. It
need hold only from states that are ready. -/
structure Handing (R : State → State → Prop) (Ready : State → Prop) (Here : Frame → Prop)
    (Allowed : Frame → Node Compiled → Prop) (E : Frame → Compiled → Prop := fun _ _ => True) : Prop
    extends Textless R E where
  structural : Structural (keeping R) E
  cache {frame : Frame} {exprs : List Compiled} {n : Node Compiled} {body : Run Unit} :
    Here frame → Allowed frame (.cache exprs n) → Keeps R body → Keeps R (renderCache frame exprs body)
  vars (st : State) (vs : Vars) : R st { st with vars := vs }
  ready {st st' : State} : (Ready st → R st st') → R st st'
  reads {frame : Frame} {n : Node Compiled} : Here frame → Allowed frame n → ∀ e ∈ n.reads, E frame e
  host (v : Value) : Keeps R (setGlobal hostVariable v)
  global {frame : Frame} {assignments : List (Assignment Compiled)} {body : Node Compiled} :
    Allowed frame (.define assignments body) →
    ∀ a ∈ assignments, a.isGlobal → ∀ name ∈ a.names, ∀ v, Keeps R (setGlobal name v)
  domain {frame : Frame} (domain : Bytes) : Here frame → Here { frame with domain }
  allowedDomain {frame : Frame} {n : Node Compiled} (domain : Bytes) :
    Allowed frame n → Allowed { frame with domain } n
  slots {frame : Frame} : Here frame → ∀ f ∈ frame.slots, Here f.2.2 ∧ f.2.1.Every (Allowed f.2.2)
  body {st : State} {program : Nat} {body : Node Compiled} (bound : Nat) {slots : Fills} :
    Ready st → IsBodyOf (st.world.program program) body → (∀ f ∈ slots, Here f.2.2 ∧ f.2.1.Every (Allowed f.2.2)) →
    Here (bodyFrame program bound slots st) ∧ body.Every (Allowed (bodyFrame program bound slots st))
  within {st st₁ : State} (program : Nat) : R (bodyStart program st) st₁ →
    R st { st₁ with named := st.named, activations := st₁.activations.take st.activations.length }

namespace Handing

variable {n : Node Compiled} {R : State → State → Prop} {Ready : State → Prop} {Here : Frame → Prop}
  {Allowed : Frame → Node Compiled → Prop} {E : Frame → Compiled → Prop} (hR : Handing R Ready Here Allowed E)
include hR

theorem passedSlots (hframe : Here frame) (hfills : ∀ f ∈ fills, f.2.Every (Allowed frame)) (extend : Bool) :
    ∀ f ∈ passedSlots frame fills extend, Here f.2.2 ∧ f.2.1.Every (Allowed f.2.2) := by
  intro f hf
  rcases mem_passedSlots hf with ⟨g, hg, rfl⟩ | hf
  · exact ⟨hframe, hfills g hg⟩
  · exact hR.slots hframe f hf

section Calls

variable {slots : Fills} {call : Continuation}
  (hcall : ∀ {frame : Frame} {n : Node Compiled}, Here frame → n.Every (Allowed frame) → Keeps R (call frame n))
include hcall

theorem renderFill {fill : Node Compiled × Frame} (hframe : Here fill.2) (hnode : fill.1.Every (Allowed fill.2)) :
    Keeps R (renderFill call fill) := by
  intro st r s hrun
  rw [run_renderFill, Option.map_eq_some_iff] at hrun
  obtain ⟨⟨r₁, s₁⟩, hrun, hend⟩ := hrun
  cases hend
  have hbody := hR.trans (hR.named st none) (hcall hframe hnode _ _ _ hrun)
  exact hR.trans hbody (hR.trans (hR.vars s₁ st.vars) (hR.named { s₁ with vars := st.vars } st.named))

theorem renderBody {st s : State} {program bound : Nat} {body : Node Compiled} {r : Except Failure Unit}
    (hbody : Ready st → Here (bodyFrame program bound slots st) ∧ body.Every (Allowed (bodyFrame program bound slots st)))
    (hrun : (renderBody call program bound body slots).run st = some (r, s)) : R st s := by
  refine hR.ready fun hready => ?_
  rw [run_renderBody, Option.map_eq_some_iff] at hrun
  obtain ⟨⟨r₁, s₁⟩, hrun, hend⟩ := hrun
  cases hend
  obtain ⟨hframe, hnode⟩ := hbody hready
  exact hR.within program (hcall hframe hnode _ _ _ hrun)

theorem renderMacro (hslots : ∀ f ∈ slots, Here f.2.2 ∧ f.2.1.Every (Allowed f.2.2)) (m : Value) :
    Keeps R (renderMacro call slots m) := by
  unfold Render.renderMacro
  split
  · intro st r s hrun
    rw [Run.run_get_bind] at hrun
    dsimp only at hrun
    split at hrun
    · next hbody => exact hR.renderBody hcall (fun hready => hR.body _ hready (.inr ⟨_, hbody⟩) hslots) hrun
    · exact hR.throw _ _ _ _ hrun
  · intro st r s hrun
    rw [Run.run_get_bind] at hrun
    exact hR.renderBody hcall (fun hready => hR.body _ hready (.inl rfl) hslots) hrun
  · next id _ =>
    intro st r s hrun
    rw [Run.run_get_bind] at hrun
    dsimp only at hrun
    rw [Run.run_set_bind] at hrun
    have hcooked : R st { st with world := (st.world.cook id).2 } := hR.world st (.single (.cook id st.world))
    refine hR.trans hcooked ?_
    rcases Run.run_bind_eq_some hrun with ⟨program, st₁, hlift, hrun⟩ | ⟨f, hlift, _⟩
    · cases hcook : (st.world.cook id).1 with
      | error f =>
        rw [hcook] at hlift
        cases hlift
      | ok program' =>
        rw [hcook] at hlift
        cases hlift
        exact hR.renderBody hcall (fun hready => hR.body _ hready (.inl rfl) hslots) hrun
    · exact hR.lifted _ _ _ _ hlift
  · refine hR.bind (.modify fun st => hR.append st _) fun _ => ?_
    split
    · next fill hfill =>
      obtain ⟨before, after, hlookup, _⟩ := List.lookup_eq_some_iff.1 hfill
      obtain ⟨hframe, hnode⟩ := hslots (hostSlot, fill) (by simp [hlookup])
      exact hR.renderFill hcall hframe hnode
    · exact hR.host _
  · exact hR.pure _

theorem callMacro (hframe : Here frame)
    (hfills : ∀ f ∈ fills, f.2.Every (Allowed frame)) (extend : Bool) (m : Value) :
    Keeps R (callMacro call frame fills extend m) := by
  intro st r s hrun
  rw [run_callMacro, Option.map_eq_some_iff] at hrun
  obtain ⟨⟨r₁, s₁⟩, hrun, hend⟩ := hrun
  cases hend
  exact hR.trans (hR.renderMacro hcall (hR.passedSlots hframe hfills extend) m _ _ _ hrun) (hR.vars s₁ _)

theorem node (hframe : Here frame) (hn : n.Every (Allowed frame)) : Keeps R (node call frame n) := by
  -- Going down a node changes nothing of the frame but the translation domain.
  have hcalls : ∀ {slots : List (Bytes × Node Compiled)} {extend : Bool}, (∀ m ∈ Node.allOfSlots slots, Allowed frame m) →
      ∀ frame' : Frame, (∃ domain, frame' = { frame with domain }) → ∀ m,
        Always (keeping R) (Render.callMacro call frame' slots extend m) := by
    rintro slots extend hslots _ ⟨domain, rfl⟩ m _
    refine hR.callMacro hcall (hR.domain domain hframe) (fun f hf n hn => hR.allowedDomain domain (hslots n ?_)) extend m
    rw [Node.allOfSlots_eq_flatMap]
    exact List.mem_flatMap.2 ⟨_, List.mem_map.2 ⟨f, hf, rfl⟩, List.mem_cons_of_mem _ hn⟩
  have hguarded : Guarded call (fun frame' => ∃ domain, frame' = { frame with domain }) (keeping R) (Allowed frame) E := by
    refine hR.structural.guarded ?_ ?_ ?_ ?_ ?_ (fun _ _ _ _ => hcalls) fun _ _ _ _ => hcalls
    · rintro _ domain' ⟨domain, rfl⟩
      exact ⟨domain', rfl⟩
    · rintro _ name fill ⟨domain, rfl⟩ hfill _
      obtain ⟨before, after, hlookup, _⟩ := List.lookup_eq_some_iff.1 hfill
      have hmem : (name, fill) ∈ frame.slots := by
        rw [show frame.slots = _ from hlookup]
        simp
      obtain ⟨hfillFrame, hfillNode⟩ := hR.slots hframe _ hmem
      exact hR.renderFill hcall hfillFrame hfillNode
    · rintro n _ hallowed ⟨domain, rfl⟩
      exact hR.reads (hR.domain domain hframe) (hR.allowedDomain domain hallowed)
    · exact fun assignments body hallowed a ha hisGlobal name hname v _ => hR.global hallowed a ha hisGlobal name hname v
    · rintro exprs body _ hallowed ⟨domain, rfl⟩ hbody _
      exact hR.cache (hR.domain domain hframe) (hR.allowedDomain domain hallowed) (hbody [])
  exact hguarded.node n frame hn ⟨frame.domain, by cases frame; rfl⟩ []

end Calls

theorem toDepth (depth : Nat) (hframe : Here frame) (hn : n.Every (Allowed frame)) :
    Keeps R (toDepth depth frame n) := by
  induction depth generalizing frame n with
  | zero => exact .exceeded
  | succ depth ih => exact hR.node ih hframe hn

end Handing

end PageTemplate.Render
