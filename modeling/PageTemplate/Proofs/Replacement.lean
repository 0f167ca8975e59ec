import PageTemplate.Proofs.Programs

/-!
One program in the place of another. If the two look the same from outside, no expression can tell which of them a world
has. `World.Replaced.bisimulation` is the main statement.
-/

namespace PageTemplate

namespace World

def withProgram (w : World) (k : Nat) (q : Program) : World := { w with programs := w.programs.set k q }

variable (w : World) (k : Nat) (q : Program)

@[simp] theorem template_withProgram (id : Nat) : (w.withProgram k q).template id = w.template id := rfl

@[simp] theorem settingsOf_withProgram (id : Nat) : (w.withProgram k q).settingsOf id = w.settingsOf id := rfl

theorem program_withProgram (id : Nat) :
    (w.withProgram k q).program id = if k = id ∧ k < w.programs.length then q else w.program id := by
  rw [program, program, withProgram, List.getD_eq_getElem?_getD, List.getD_eq_getElem?_getD, List.getElem?_set]
  by_cases hk : k = id
  · subst hk
    by_cases hlt : k < w.programs.length
    · simp [hlt]
    · simp [hlt]
  · simp [hk]

/-! Everything that is done to a world passes the program by. -/

theorem logLine_withProgram (settings : Nat) (level : Level) (text : Bytes) :
    (w.withProgram k q).logLine settings level text = (w.logLine settings level text).withProgram k q := by
  unfold logLine
  rw [settingsOf_withProgram]
  split <;> rfl

theorem translate_withProgram (settings : Nat) (m : Message) :
    (w.withProgram k q).translate settings m =
      ((w.translate settings m).1, (w.translate settings m).2.withProgram k q) := by
  unfold translate
  rw [settingsOf_withProgram]
  dsimp only
  split
  · rw [logLine_withProgram]
  · rfl

theorem keepProgram_withProgram {k : Nat} (hk : k < w.programs.length) (id : Nat) (key : Bytes) (program : Program) :
    (w.withProgram k q).keepProgram id key program = (w.keepProgram id key program).withProgram k q := by
  unfold keepProgram
  dsimp only
  rw [← logLine_withProgram]
  congr 1
  simp only [withProgram, newProgram, template, World.mk.injEq, List.length_set, true_and, and_true]
  rw [List.set_append_left _ _ hk]

theorem cook_withProgram {k : Nat} (hk : k < w.programs.length) (id : Nat) :
    (w.withProgram k q).cook id = ((w.cook id).1, (w.cook id).2.withProgram k q) := by
  -- What a program is cached under and compiled from does not depend on other programs.
  have hkeyText : (w.withProgram k q).keyText = w.keyText := rfl
  have hprogramKey : (w.withProgram k q).programKey = w.programKey := rfl
  have hcache : ∀ u : World, (u.withProgram k q).cache = u.cache := fun _ => rfl
  have hregistry : ∀ u : World, (u.withProgram k q).registryOf = u.registryOf := fun _ => rfl
  have hnoted : ∀ texts, { w.withProgram k q with digested := texts :: (w.withProgram k q).digested } =
      ({ w with digested := texts :: w.digested } : World).withProgram k q := fun _ => rfl
  unfold cook
  dsimp only
  rw [template_withProgram, hkeyText, hprogramKey, hnoted, hcache, hregistry]
  split
  · rfl
  · split
    · rfl
    · split
      · rfl
      · rw [keepProgram_withProgram _ q (by exact hk)]
        simp [withProgram]

theorem invalidate_withProgram (id : Nat) :
    (w.withProgram k q).invalidate id = (w.invalidate id).withProgram k q := by
  unfold invalidate
  dsimp only
  rw [← logLine_withProgram]
  rfl

theorem reload_withProgram (id : Nat) (source : Bytes) :
    (w.withProgram k q).reload id source = (w.reload id source).withProgram k q := by
  unfold reload
  rw [← invalidate_withProgram]
  rfl

theorem readFile_withProgram (path : Bytes) :
    (w.withProgram k q).readFile path = ((w.readFile path).1, (w.readFile path).2.withProgram k q) := by
  have hfiles : (w.withProgram k q).files = w.files := rfl
  unfold readFile
  rw [hfiles]
  split <;> rfl

theorem loadSource_withProgram (loader : Nat) (name : Bytes) :
    (w.withProgram k q).loadSource loader name =
      ((w.loadSource loader name).1, (w.loadSource loader name).2.withProgram k q) := by
  have hloaders : (w.withProgram k q).loaders = w.loaders := rfl
  unfold loadSource
  rw [hloaders]
  split
  · split <;> rfl
  · next root _ =>
    dsimp only
    rw [readFile_withProgram]
    generalize w.readFile (Path.join root name) = r
    obtain ⟨r, u⟩ := r
    cases r with
    | ok text => rfl
    | error fault => cases fault <;> rfl

theorem loadTemplate_withProgram (loader : Nat) (name : Bytes) (settings cache : Nat) :
    (w.withProgram k q).loadTemplate loader name settings cache =
      ((w.loadTemplate loader name settings cache).1, (w.loadTemplate loader name settings cache).2.withProgram k q) := by
  unfold loadTemplate
  rw [loadSource_withProgram]
  generalize w.loadSource loader name = r
  obtain ⟨r, u⟩ := r
  cases r <;> rfl

theorem loadProgram_withProgram {k : Nat} (hk : k < w.programs.length) (id : Nat) (name : Bytes) :
    (w.withProgram k q).loadProgram id name =
      ((w.loadProgram id name).1, (w.loadProgram id name).2.withProgram k q) := by
  unfold loadProgram
  rw [template_withProgram]
  dsimp only
  split
  · rfl
  · next loader _ =>
    have hkept := w.kept_loadTemplate loader (resolveName name (w.template id).name) (w.template id).settings
      (w.template id).cache
    rw [loadTemplate_withProgram]
    generalize w.loadTemplate loader (resolveName name (w.template id).name) (w.template id).settings
      (w.template id).cache = r at hkept ⊢
    obtain ⟨r, u⟩ := r
    cases r with
    | ok child => exact u.cook_withProgram q (by rw [show u.programs = w.programs from congrArg Prod.snd hkept]; exact hk) child
    | error f => cases f <;> rfl

/-- The worlds are the same but for the program under a number. -/
structure Replaced (k : Nat) (p q : Program) (w w' : World) : Prop where
  program : w.programs[k]? = some p
  eq : w' = w.withProgram k q

namespace Replaced

variable {k : Nat} {p q : Program} {w w' : World}

theorem lt (h : Replaced k p q w w') : k < w.programs.length := (List.getElem?_eq_some_iff.1 h.program).1

theorem resembles (hpq : p.Resembles q) (h : Replaced k p q w w') : w.Resembles w' := by
  rw [h.eq]
  refine .intro _ fun id => ?_
  change (w.program id).Resembles ((w.withProgram k q).program id)
  rw [program_withProgram]
  split
  · next hid =>
    have hp : w.program id = p := by
      rw [World.program, List.getD_eq_getElem?_getD, ← hid.1, h.program, Option.getD_some]
    rw [hp]
    exact hpq
  · exact .refl _

theorem step {α : Type} {f : World → α × World} (h : Replaced k p q w w') (hstep : w.Step (f w).2)
    (hf : f (w.withProgram k q) = ((f w).1, (f w).2.withProgram k q)) : Matched (Replaced k p q) (f w) (f w') := by
  rw [h.eq, hf]
  exact ⟨rfl, (Evolves.single hstep).program? h.program, rfl⟩

end Replaced

end World

namespace Expression

open World

variable (w : World) (k : Nat) (q : Program)
variable {w' : World}

theorem runBehaviour_withProgram (b : Behaviour) (args : List Bytes) :
    (runBehaviour b args).run (w.withProgram k q) =
      (((runBehaviour b args).run w).1, ((runBehaviour b args).run w).2.withProgram k q) := by
  unfold runBehaviour
  split
  case h_8 settings s =>
    have htranslate := w.translate_withProgram k q settings
      { msgid := s, domain := (w.settingsOf settings).domain, language := (w.settingsOf settings).language, fallback := s }
    exact congrArg (fun r : Bytes × World => (some (Except.ok (Value.text r.1)), r.2)) htranslate
  case h_7 => split <;> rfl
  all_goals rfl

variable {w k q} {p : Program} (hpq : p.Resembles q)

theorem matched_runBehaviour (h : Replaced k p q w w') (b : Behaviour) (args : List Bytes) :
    Matched (Replaced k p q) ((runBehaviour b args).run w) ((runBehaviour b args).run w') :=
  h.step (f := (runBehaviour b args).run) (.behaviour b args w) (runBehaviour_withProgram w k q b args)

include hpq in
theorem matched_runTemplateMethod (h : Replaced k p q w w') (id : Nat) (filename name : Bytes) (args : List Bytes) :
    Matched (Replaced k p q) ((runTemplateMethod id filename name args).run w)
      ((runTemplateMethod id filename name args).run w') := by
  have hcook := h.step (f := fun u => u.cook id) (.cook id w) (w.cook_withProgram q h.lt id)
  have hattempt : ∀ run : World → Except Failure Value × World, Matched (Replaced k p q) (run w) (run w') →
      Matched (Replaced k p q) ((attempt run).run w) ((attempt run).run w') :=
    fun _ hrun => ⟨congrArg some hrun.1, hrun.2⟩
  unfold runTemplateMethod
  split
  · exact ⟨rfl, h⟩
  · split
    · exact hattempt _ (hcook.programValue fun _ _ => Replaced.resembles hpq)
    · split
      · refine hattempt _ ?_
        obtain ⟨r, u, u', hrun, hrun', hworlds⟩ := hcook.exists
        have hnames : (fun p => (u'.program p).macroNames) = fun p => (u.program p).macroNames :=
          funext fun id => ((hworlds.resembles hpq).program id).macroNames
        unfold macroNames
        rw [show w.cook id = (r, u) from hrun, show w'.cook id = (r, u') from hrun']
        exact ⟨congrArg (fun names => (r.map names).map Value.collected) hnames, hworlds⟩
      · have hinvalidate : Replaced k p q (w.invalidate id) (w'.invalidate id) :=
          ⟨by rw [← h.program]; exact congrArg (·[k]?) (congrArg Prod.snd (w.kept_invalidate id)),
            by rw [h.eq, invalidate_withProgram]⟩
        have hreload : ∀ {u u' : World} (source : Bytes), Replaced k p q u u' →
            Replaced k p q (u.reload id source) (u'.reload id source) := fun source hu =>
          ⟨by rw [← hu.program]; exact congrArg (·[k]?) (congrArg Prod.snd (kept_reload ..)),
            by rw [hu.eq, reload_withProgram]⟩
        split
        · split
          · exact ⟨rfl, hreload _ hinvalidate⟩
          · exact ⟨rfl, hreload _ h⟩
        · split
          · exact ⟨rfl, hinvalidate⟩
          · exact ⟨rfl, h⟩

theorem matched_runFailureMethod {R : World → World → Prop} (h : R w w') (f : Failure) (name : Bytes) :
    Matched R ((runFailureMethod f name).run w) ((runFailureMethod f name).run w') := by
  unfold runFailureMethod
  split
  · exact ⟨rfl, h⟩
  · split
    · split
      · exact ⟨rfl, h⟩
      · split <;> exact ⟨rfl, h⟩
    · exact ⟨rfl, h⟩

include hpq in
theorem matched_runMethod (h : Replaced k p q w w') (self : Value) (name : Bytes) (args : List Bytes) :
    Matched (Replaced k p q) ((runMethod self name args).run w) ((runMethod self name args).run w') := by
  have hitem : ∀ step : Heap → Option Value × Heap,
      Matched (Replaced k p q) ((nextItem step).run w) ((nextItem step).run w') := by
    obtain ⟨hp, rfl⟩ := h
    exact fun _ => ⟨rfl, hp, rfl⟩
  unfold runMethod
  split
  · split
    · exact matched_runBehaviour h _ args
    · exact ⟨rfl, h⟩
  · split
    · exact matched_runBehaviour h _ args
    · exact ⟨rfl, h⟩
  · exact matched_runFailureMethod h _ name
  · split
    · exact hitem _
    · exact ⟨by rw [h.eq]; rfl, h⟩
  · split
    · exact hitem _
    · exact ⟨by rw [h.eq]; rfl, h⟩
  · next id _ =>
    have hnames := ((h.resembles hpq).program id).macroNames
    exact ⟨congrArg (fun names => some (Except.ok (Value.collected names))) hnames, h⟩
  · exact matched_runTemplateMethod hpq h _ _ name args
  · exact ⟨by rw [h.eq]; rfl, h⟩
  · exact ⟨rfl, h⟩

end Expression

theorem World.Replaced.bisimulation {k : Nat} {p q : Program} (hpq : p.Resembles q) :
    World.Bisimulation (World.Replaced k p q) where
  resembles h := h.resembles hpq
  behaviour b args _ _ h := Expression.matched_runBehaviour h b args
  method self name args _ _ h := Expression.matched_runMethod hpq h self name args
  load id name {w _} h := h.step (f := fun u => u.loadProgram id name) (.load id name w)
    (w.loadProgram_withProgram q h.lt id name)
  cook id {w _} h := h.step (f := fun u => u.cook id) (.cook id w) (w.cook_withProgram q h.lt id)
  translate settings m {w _} h :=
    h.step (f := fun u => u.translate settings m) (.translate settings m w) (w.translate_withProgram k q settings m)
  compare a b {w _} h := ⟨h.program, by rw [h.eq]; rfl⟩

end PageTemplate
