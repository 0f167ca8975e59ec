import PageTemplate.Proofs.Programs
import PageTemplate.Proofs.Render.Handing

/-!
Reserved names. Clauses that bind a reserved name are refused, so no node of a compiled template binds one, and all that
is rendered consists of such nodes. So no variable of the whole render has a reserved name. `Program.IsCompiled.isFree`
is about programs, and `Tidied.toDepth` about runs.
-/

namespace PageTemplate

/-- Nothing in the program binds a reserved name. -/
structure Program.IsFree (p : Program) : Prop where
  main : p.main.Every Node.IsFree
  macros : ∀ m ∈ p.macros, m.2.Every Node.IsFree

theorem Node.Every.of_mem {Good : Node Compiled → Prop} {n m : Node Compiled} (h : n.Every Good) (hm : m ∈ n.all) :
    m.Every Good :=
  fun k hk => h k (all_subset_of_mem hm hk)

@[simp] theorem Node.binds_map {ε δ : Type} (g : ε → δ) (n : Node ε) : (n.map g).binds = n.binds := by
  cases n <;> simp [map, binds, List.flatMap_map]

theorem Program.IsCompiled.isFree {p : Program} (h : p.IsCompiled) : p.IsFree := by
  obtain ⟨r, filename, source, settings, hcompile⟩ := h
  have hS : ∀ tree, Markup.parse source filename = .ok tree →
      Builder.Sound r (· ∈ Markup.elementHeads tree) (fun _ => True) (fun _ => True) Node.IsFree := fun _ _ =>
    { unlocated := fun _ => trivial
      compiling := fun _ _ _ _ => trivial
      splitting := fun _ _ _ _ => trivial
      values := fun _ _ _ => trivial
      other := fun _ hread => hread.names
      startTag := fun _ _ _ _ _ => Node.isFree_of_binds_eq_nil rfl
      writtenTag := fun _ _ _ _ _ => Node.isFree_of_binds_eq_nil rfl }
  have hnode : ∀ {n : Node Compiled}, (n ∈ p.main.all ∨ ∃ q ∈ p.macros, n ∈ q.2.all) → n.IsFree := by
    intro n hn
    obtain ⟨_, n₀, hn₀, hcompiles⟩ := Builder.exists_good_of_compileTemplate hS hcompile hn
    rw [Node.IsFree, hcompiles.eq_map, Node.binds_map]
    exact hn₀
  exact ⟨fun n hn => hnode (.inl hn), fun q hq n hn => hnode (.inr ⟨q, hq, hn⟩)⟩

namespace World

theorem isFree_program {w : World} (h : ∀ p ∈ w.programs, p.IsFree) (id : Nat) : (w.program id).IsFree := by
  rw [program, List.getD_eq_getElem?_getD]
  cases hp : w.programs[id]? with
  | none => exact ⟨fun n hn => absurd hn List.not_mem_nil, fun m hm => absurd hm List.not_mem_nil⟩
  | some p => exact h p (List.mem_of_getElem? hp)

end World

namespace Render

open Run (Keeps)

variable {frame : Frame}

/-- Nothing that fills the slots of the frame, or slots there, binds a reserved name. -/
inductive Frame.IsFree : Frame → Prop where
  | intro {frame : Frame} : (∀ f ∈ frame.slots, f.2.1.Every Node.IsFree) → (∀ f ∈ frame.slots, IsFree f.2.2) →
      IsFree frame

/-- Nothing in the fills binds a reserved name. -/
def AreFree (slots : List (Bytes × Node Compiled × Frame)) : Prop :=
  ∀ f ∈ slots, f.2.1.Every Node.IsFree ∧ f.2.2.IsFree

theorem areFree_nil : AreFree [] := fun _ hf => absurd hf List.not_mem_nil

theorem Frame.isFree_iff : frame.IsFree ↔ AreFree frame.slots := by
  constructor
  · rintro ⟨hnodes, hframes⟩ f hf
    exact ⟨hnodes f hf, hframes f hf⟩
  · exact fun h => .intro (fun f hf => (h f hf).1) fun f hf => (h f hf).2

/-- No program binds a reserved name, and no variable of the whole render has one. -/
structure Tidy (st : State) : Prop where
  programs : ∀ p ∈ st.world.programs, p.IsFree
  store : ∀ name ∈ Clause.reservedNames, st.remote.get? name = none

/-- What was tidy before is tidy afterwards. -/
def Tidied (st st' : State) : Prop := Tidy st → Tidy st'

namespace Tidied

variable {name : Bytes}

theorem of_eq {st st' : State} (hworld : st'.world.programs = st.world.programs) (hremote : st'.remote = st.remote) :
    Tidied st st' := fun h => ⟨hworld ▸ h.programs, hremote ▸ h.store⟩

theorem insert (hname : name ∉ Clause.reservedNames) (v : Value) {st st' : State}
    (hworld : st'.world.programs = st.world.programs) (hremote : st'.remote = st.remote.insert name v) :
    Tidied st st' := by
  refine fun h => ⟨hworld ▸ h.programs, fun other hother => ?_⟩
  rw [hremote, Assoc.get?_insert, if_neg (fun heq : other = name => hname (heq ▸ hother))]
  exact h.store other hother

theorem aloof : Aloof Tidied where
  trans h h' hst := h' (h hst)
  world _ _ hw h := ⟨hw.forall_programs (fun _ => Program.IsCompiled.isFree) h.programs, h.store⟩
  views _ _ _ _ _ := of_eq rfl rfl
  apart _ _ _ _ _ := of_eq rfl rfl
  failures _ v := insert (by decide) v rfl rfl

theorem caching : Caching (keeping Tidied) :=
  aloof.caching (fun _ _ => of_eq rfl rfl) fun _ _ => of_eq rfl rfl

theorem setGlobal (hname : name ∉ Clause.reservedNames) (v : Value) : Keeps Tidied (setGlobal name v) :=
  .modify fun _ => insert hname v rfl rfl

theorem handing : Handing Tidied Tidy Frame.IsFree fun _ => Node.IsFree where
  toTextless := aloof.toTextless
  structural := caching.toStructural
  cache _ _ hbody := caching.cache _ (fun _ _ => trivial) (fun _ => hbody) []
  vars _ _ := of_eq rfl rfl
  ready h htidy := h htidy htidy
  reads _ _ _ _ := trivial
  host v := setGlobal (by decide) v
  global hfree a ha _ name hname v := setGlobal (hfree name (List.mem_flatMap.2 ⟨a, ha, hname⟩)) v
  domain _ hframe := by
    rw [Frame.isFree_iff] at hframe ⊢
    exact hframe
  allowedDomain _ hn := hn
  slots hframe f hf := ((Frame.isFree_iff.1 hframe) f hf).symm
  body {st program body} bound slots htidy hbody hslots := by
    have hprogram := World.isFree_program htidy.programs program
    refine ⟨Frame.isFree_iff.2 fun f hf => (hslots f hf).symm, ?_⟩
    rcases hbody with rfl | ⟨name, hname⟩
    · exact hprogram.main
    · obtain ⟨before, after, hmacros, _⟩ := List.lookup_eq_some_iff.1 hname
      exact hprogram.macros (name, body) (by simp [hmacros])
  within _ h htidy := by
    have htidy₁ := h ⟨htidy.programs, htidy.store⟩
    exact ⟨htidy₁.programs, htidy₁.store⟩

theorem toDepth (depth : Nat) {n : Node Compiled} (hframe : frame.IsFree)
    (hn : n.Every Node.IsFree) : Keeps Tidied (toDepth depth frame n) :=
  handing.toDepth depth hframe hn

end Tidied

end Render

end PageTemplate
