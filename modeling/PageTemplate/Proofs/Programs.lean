import PageTemplate.Proofs.Evaluation

/-!
What expressions leave as it is. They read the tables of the loops that are running and the settings, and none of them
changes one. Templates are compiled while expressions are evaluated, and can be given a new source, but all that ever
happens to the list of programs is that one is added at its end, compiled from a template.
-/

namespace PageTemplate

/-- The program is what a template has been compiled to. -/
def Program.IsCompiled (p : Program) : Prop :=
  ∃ r filename source settings, compileTemplate r filename source settings = .ok p

namespace World

variable (w : World)

def fixed (w : World) : List (Assoc Nat) × List Settings := (w.heap.tables, w.settings)

/-- What most of the steps leave as it is. Those that compile a template add to the programs. -/
def kept (w : World) : (List (Assoc Nat) × List Settings) × List Program := (w.fixed, w.programs)

/-- Programs have been added at most, and those that were are compiled from templates. -/
def Grows (w w' : World) : Prop :=
  w'.fixed = w.fixed ∧ ∃ added, w'.programs = w.programs ++ added ∧ ∀ p ∈ added, p.IsCompiled

theorem Grows.of_eq {w w' : World} (h : w'.kept = w.kept) : w.Grows w' :=
  ⟨congrArg Prod.fst h, [], (congrArg Prod.snd h).trans (List.append_nil _).symm, by simp⟩

theorem Grows.trans {w₁ w₂ w₃ : World} (h : w₁.Grows w₂) (h' : w₂.Grows w₃) : w₁.Grows w₃ := by
  obtain ⟨hfixed, added, hadded, hcompiled⟩ := h
  obtain ⟨hfixed', added', hadded', hcompiled'⟩ := h'
  refine ⟨hfixed'.trans hfixed, added ++ added', by rw [hadded', hadded, List.append_assoc], fun p hp => ?_⟩
  rcases List.mem_append.1 hp with hp | hp
  · exact hcompiled p hp
  · exact hcompiled' p hp

@[simp] theorem kept_logLine (settings : Nat) (level : Level) (text : Bytes) :
    (w.logLine settings level text).kept = w.kept := by
  unfold logLine
  split <;> rfl

@[simp] theorem kept_translate (settings : Nat) (m : Message) :
    (w.translate settings m).2.kept = w.kept := by
  unfold translate
  dsimp only
  split
  · exact kept_logLine w settings .warn _
  · rfl

theorem grows_cook (id : Nat) : w.Grows (w.cook id).2 := by
  unfold cook
  dsimp only
  split
  · exact .of_eq rfl
  · split
    · exact .of_eq rfl
    · split
      · exact .of_eq rfl
      · next program hcompile =>
        have hcompiled : program.IsCompiled := ⟨_, _, _, _, hcompile⟩
        have hkept := kept_logLine
        refine ⟨congrArg Prod.fst (hkept ..), [program], congrArg Prod.snd (hkept ..), fun p hp => ?_⟩
        rw [List.mem_singleton.1 hp]
        exact hcompiled

@[simp] theorem kept_invalidate (id : Nat) : (w.invalidate id).kept = w.kept := by
  unfold invalidate
  rw [kept_logLine]
  rfl

@[simp] theorem kept_reload (id : Nat) (source : Bytes) :
    (w.reload id source).kept = w.kept := by
  unfold reload
  rw [kept_invalidate]
  rfl

@[simp] theorem kept_readFile (path : Bytes) : (w.readFile path).2.kept = w.kept := by
  unfold readFile
  split <;> rfl

@[simp] theorem kept_loadSource (loader : Nat) (name : Bytes) :
    (w.loadSource loader name).2.kept = w.kept := by
  unfold loadSource
  split
  · split <;> rfl
  · next root _ =>
    have hfile := w.kept_readFile (Path.join root name)
    dsimp only
    split <;> simp_all

@[simp] theorem kept_loadTemplate (loader : Nat) (name : Bytes) (settings cache : Nat) :
    (w.loadTemplate loader name settings cache).2.kept = w.kept := by
  have hsource := w.kept_loadSource loader name
  unfold loadTemplate
  split
  · simp_all
  · next heq =>
    rw [heq] at hsource
    exact hsource

theorem grows_loadProgram (id : Nat) (name : Bytes) : w.Grows (w.loadProgram id name).2 := by
  unfold loadProgram
  dsimp only
  split
  · exact .of_eq rfl
  · next loader _ =>
    have htemplate := w.kept_loadTemplate loader (resolveName name (w.template id).name)
      (w.template id).settings (w.template id).cache
    split
    · next child w' heq =>
      rw [heq] at htemplate
      exact (Grows.of_eq htemplate).trans (w'.grows_cook child)
    · next heq =>
      rw [heq] at htemplate
      exact .of_eq htemplate
    · next heq =>
      rw [heq] at htemplate
      exact .of_eq htemplate

end World

namespace Heap

@[simp] theorem tables_nextOf (h : Heap) (id : Nat) : (h.nextOf id).2.tables = h.tables := by
  unfold nextOf
  split <;> rfl

@[simp] theorem tables_advance (h : Heap) (id : Nat) : (h.advance id).2.tables = h.tables := by
  have hnext := h.tables_nextOf (h.loop id).cursor
  unfold advance
  dsimp only
  split <;> simp_all

end Heap

namespace Expression

theorem kept_runBehaviour (b : Behaviour) (args : List Bytes) (w : World) :
    ((runBehaviour b args).run w).2.kept = w.kept := by
  unfold runBehaviour
  split
  case h_8 settings s => exact w.kept_translate settings _
  case h_7 => split <;> rfl
  all_goals rfl

theorem kept_runFailureMethod (f : Failure) (name : Bytes) (w : World) :
    ((runFailureMethod f name).run w).2.kept = w.kept := by
  unfold runFailureMethod
  split
  · rfl
  · split
    · split
      · rfl
      · split <;> rfl
    · rfl

theorem grows_runTemplateMethod (id : Nat) (filename name : Bytes) (args : List Bytes) (w : World) :
    w.Grows ((runTemplateMethod id filename name args).run w).2 := by
  have hattempt : ∀ run : World → Except Failure Value × World, w.Grows (run w).2 →
      w.Grows ((attempt run).run w).2 := fun _ h => h
  unfold runTemplateMethod
  split
  · exact .of_eq rfl
  · split
    · exact hattempt _ (w.grows_cook id)
    · split
      · exact hattempt _ (w.grows_cook id)
      · split
        · split
          · exact .of_eq ((World.kept_reload _ id _).trans (w.kept_invalidate id))
          · exact .of_eq (w.kept_reload id _)
        · split
          · exact .of_eq (w.kept_invalidate id)
          · exact .of_eq rfl

end Expression

open Expression in
theorem World.Step.grows {w w' : World} (h : w.Step w') : w.Grows w' := by
  cases h with
  | behaviour b args => exact .of_eq (kept_runBehaviour b args w)
  | method self name args =>
    unfold runMethod
    split
    · split
      · exact .of_eq (kept_runBehaviour _ args w)
      · exact .of_eq rfl
    · split
      · exact .of_eq (kept_runBehaviour _ args w)
      · exact .of_eq rfl
    · exact .of_eq (kept_runFailureMethod _ name w)
    · split
      · exact .of_eq (congrArg (fun tables => ((tables, w.settings), w.programs)) (w.heap.tables_nextOf _))
      · exact .of_eq rfl
    · split
      · exact .of_eq (congrArg (fun tables => ((tables, w.settings), w.programs)) (w.heap.tables_advance _))
      · exact .of_eq rfl
    · exact .of_eq rfl
    · exact grows_runTemplateMethod _ _ name args w
    · exact .of_eq rfl
    · exact .of_eq rfl
  | load id name => exact w.grows_loadProgram id name
  | cook id => exact w.grows_cook id
  | translate settings m => exact .of_eq (w.kept_translate settings m)
  | compare a b => exact .of_eq rfl

theorem World.Evolves.grows {w w' : World} (h : w.Evolves w') : w.Grows w' := by
  induction h with
  | refl => exact .of_eq rfl
  | tail _ hstep ih => exact ih.trans hstep.grows

theorem World.Evolves.tables {w w' : World} (h : w.Evolves w') : w'.heap.tables = w.heap.tables :=
  congrArg Prod.fst h.grows.1

theorem World.Evolves.settings {w w' : World} (h : w.Evolves w') : w'.settings = w.settings :=
  congrArg Prod.snd h.grows.1

theorem World.Evolves.program? {w w' : World} (h : w.Evolves w') {id : Nat} {p : Program}
    (hp : w.programs[id]? = some p) : w'.programs[id]? = some p := by
  obtain ⟨_, added, hadded, _⟩ := h.grows
  obtain ⟨hid, _⟩ := List.getElem?_eq_some_iff.1 hp
  rw [hadded, List.getElem?_append_left hid, hp]

theorem World.Evolves.forall_programs {P : Program → Prop} (hP : ∀ p : Program, p.IsCompiled → P p) {w w' : World}
    (h : w.Evolves w') (hw : ∀ p ∈ w.programs, P p) : ∀ p ∈ w'.programs, P p := by
  obtain ⟨_, added, hadded, hcompiled⟩ := h.grows
  rw [hadded]
  intro p hp
  rcases List.mem_append.1 hp with hp | hp
  · exact hw p hp
  · exact hP p (hcompiled p hp)

end PageTemplate
