import PageTemplate.Proofs.Programs
import PageTemplate.Proofs.Render.Run
import PageTemplate.Proofs.ValueClauses
import PageTemplate.Template.Render

/-!
Rendering macros on their own. A macro is asked for by name, but found by the identifier made of its name. No two macros
of a template have the same identifier, so a macro asked for by its own name is found; so is one whose name has the same
identifier as the one asked for.
-/

namespace PageTemplate

open Markup (identifierOf)

variable {name : Bytes} {p : Program} {program : Nat} {body : Node Compiled}

theorem macroEntry_inj {name' : Bytes} :
    macroEntry name = macroEntry name' ↔ identifierOf name = identifierOf name' := by
  rw [macroEntry, macroEntry, List.append_cancel_left_eq, List.cons_inj_right]

/-- The macros of a program have names and are found by their identifiers. -/
structure Program.Enterable (p : Program) : Prop where
  named : ∀ name ∈ p.macroNames, name ≠ []
  entries (name found : Bytes) : p.entries.get? (macroEntry name) = some found ↔
    found ∈ p.macroNames ∧ identifierOf found = identifierOf name

namespace Module

variable (m : Module) (r : Expression.Registry)

theorem yields_entries_compileMacros (macros : List (Bytes × Node Expr)) (entries : Assoc Bytes) :
    Yields (fun _ => True) (fun p : List (Bytes × Node Compiled) × Assoc Bytes =>
      p.1.map (·.1) = macros.map (·.1) ∧ ∀ k found, p.2.get? k = some found ↔
        entries.get? k = some found ∨ found ∈ p.1.map (·.1) ∧ macroEntry found = k)
      (m.compileMacros r macros entries) := by
  induction macros generalizing entries with
  | nil => exact .ok (by simp)
  | cons q macros ih =>
    unfold compileMacros
    dsimp only
    split
    · exact .error trivial
    · next hentry =>
      refine .bind (Q := fun _ => True) ⟨fun _ _ => trivial, fun _ _ => trivial⟩ fun body _ => .bind (ih _) fun p hp => ?_
      obtain ⟨hnames, hget⟩ := hp
      refine .ok ⟨by simp [hnames], fun k found => ?_⟩
      rw [hget, Assoc.get?_insert, List.map_cons, List.mem_cons]
      -- The entry point of the macro was free, so what it stands for now is this macro alone.
      by_cases hk : k = macroEntry q.1
      · grind
      · grind

theorem enterable_of_compile {settings : Nat} (hnamed : ∀ q ∈ m.macros, q.1 ≠ [])
    (h : m.compile r settings = .ok p) : p.Enterable := by
  have hyields : Yields (fun _ => True) Program.Enterable (m.compile r settings) := by
    refine .bind (Q := fun _ => True) ⟨fun _ _ => trivial, fun _ _ => trivial⟩ fun main _ => ?_
    refine .bind (m.yields_entries_compileMacros r m.macros _) fun q hq => .ok ?_
    obtain ⟨hnames, hget⟩ := hq
    refine ⟨fun name hname => ?_, fun name found => ?_⟩
    · have hmem : name ∈ m.macros.map (·.1) := hnames ▸ hname
      obtain ⟨q', hq', rfl⟩ := List.mem_map.1 hmem
      exact hnamed q' hq'
    · have hmain : macroEntry name ≠ mainEntry := by simp [macroEntry]
      simp [hget, hmain, macroEntry_inj, Program.macroNames]
  exact hyields.1 p h

end Module

theorem Program.IsCompiled.enterable (h : p.IsCompiled) : p.Enterable := by
  obtain ⟨r, filename, source, settings, h⟩ := h
  have hyields : Yields (fun _ => True) Program.Enterable (compileTemplate r filename source settings) := by
    refine .bind (Q := fun _ => True) ⟨fun _ _ => trivial, fun _ _ => trivial⟩ fun tree _ => ?_
    refine .bind ⟨fun _ => Builder.exists_orderly_of_build, fun _ _ => trivial⟩ fun m hm => ?_
    obtain ⟨k, -, hmacros⟩ := hm
    exact ⟨fun p hp => m.enterable_of_compile r (fun q hq => (hmacros q hq).1) hp, fun _ _ => trivial⟩
  exact hyields.1 p h

theorem World.enterable_program {w : World} (h : ∀ p ∈ w.programs, p.IsCompiled) (number : Nat) :
    (w.program number).Enterable := by
  rw [World.program, List.getD_eq_getElem?_getD]
  cases hp : w.programs[number]? with
  | none => exact ⟨fun _ h => absurd h List.not_mem_nil, fun _ _ => ⟨nofun, fun h => absurd h.1 List.not_mem_nil⟩⟩
  | some p => exact (h p (List.mem_of_getElem? hp)).enterable

theorem Program.exists_body?_of_mem (h : name ∈ p.macroNames) : ∃ body, p.body? name = some body := by
  obtain ⟨q, hq, rfl⟩ := List.mem_map.1 h
  cases hbody : p.body? q.1 with
  | none => exact absurd (List.lookup_eq_none_iff.1 hbody q hq) (by simp)
  | some body => exact ⟨body, rfl⟩

namespace Render

/-- Renders a body of a program on its own, bound to settings. -/
def renderAlone (call : Continuation) (program bound : Nat) (body : Node Compiled) : Run Unit := do
  modify fun st =>
    { st with remote := if st.remote.contains Remote.settingsKey then st.remote
                        else st.remote.insert Remote.settingsKey (.settings bound) }
  bindDefaults program bound []
  renderBody call program bound body []

theorem run_renderEntry_of_body (call : Continuation) (bound : Nat)
    (st : State) (hname : name ≠ []) (hbody : (st.world.program program).body? name = some body) :
    (renderEntry call program bound name []).run st = (renderAlone call program bound body).run st := by
  have hnonempty : ¬name.isEmpty = true := by simpa using hname
  have hbody' : ∀ heap, (({ st.world with heap := heap } : World).program program).body? name = some body :=
    fun _ => hbody
  simp only [renderEntry, renderAlone, bindDefaults, Run.run_bind, Run.run_modify, Run.run_get, Run.run_set,
    Option.bind_some, if_neg hnonempty, hbody']

end Render

namespace World

open Render (renderAlone toDepth)

/-- The failure to find an entry point of a template. -/
def missingEntry (w : World) (id : Nat) (entry : Bytes) : Failure :=
  .lookup entry ((w.template id).filename ++ utf8 " has no entry point " ++ Text.quote entry)

/-- What a render of a template comes to, given how the run of its program ended. -/
def finished (w : World) (id : Nat) (bindings : Vars) : Except Failure Unit × Render.State → Except Failure Bytes × World
  | (.ok (), st) => (.ok st.out.text, st.world)
  | (.error f, st) =>
    let report := st.world.reportOf (w.template id).settings f st.remote bindings
    (.error (.report report f), st.world.logLine (w.template id).settings .error report)

theorem renderEntry_of_none {w w' : World} {id : Nat} {entry : Bytes} (hcook : w.cook id = (.ok program, w'))
    (h : (w'.program program).entries.get? entry = none) (bindings : Vars) :
    w.renderEntry id entry bindings = some (.error (w.missingEntry id entry), w') := by
  simp only [renderEntry, hcook, h, missingEntry]

theorem renderEntry_of_some {w w' : World} {id : Nat} {entry : Bytes}
    (hcook : w.cook id = (.ok program, w')) (h : (w'.program program).entries.get? entry = some name)
    (hname : name ≠ []) (hbody : (w'.program program).body? name = some body) (bindings : Vars) :
    w.renderEntry id entry bindings =
      ((renderAlone (toDepth callDepth) program (w.template id).settings body).run { world := w', vars := bindings }).map
        (w.finished id bindings) := by
  have hrun := Render.run_renderEntry_of_body (toDepth callDepth) (w.template id).settings
    { world := w', vars := bindings } hname hbody
  simp only [renderEntry, hcook, h, hrun]
  cases (renderAlone (toDepth callDepth) program (w.template id).settings body).run { world := w', vars := bindings } with
  | none => rfl
  | some p =>
    obtain ⟨r, st⟩ := p
    cases r <;> rfl

/-- Asking for a macro by name renders the macro with the same identifier, in particular the one of that name, and fails
for want of an entry point if there is none. No two macros have the same entry point. -/
theorem macro_found_by_identifier {w w' : World} {id : Nat} {names : List Bytes}
    (hw : ∀ p ∈ w.programs, p.IsCompiled) (hnames : w.macroNames id = (.ok names, w')) :
    (∀ m ∈ names, ∀ m' ∈ names, macroEntry m = macroEntry m' → m = m') ∧
    ∀ name bindings,
      ((∃ w₁, w.renderMacro id name bindings = some (.error (w.missingEntry id (macroEntry name)), w₁)) ↔
        ∀ m ∈ names, identifierOf m ≠ identifierOf name) ∧
      ∀ m ∈ names, identifierOf m = identifierOf name → ∃ program body, w.cook id = (.ok program, w') ∧
        (w'.program program).body? m = some body ∧ w.renderMacro id name bindings =
          ((renderAlone (toDepth callDepth) program (w.template id).settings body).run
            { world := w', vars := bindings }).map (w.finished id bindings) := by
  have hcompiled : ∀ p ∈ (w.cook id).2.programs, p.IsCompiled := by
    obtain ⟨_, added, hadded, hnew⟩ := w.grows_cook id
    rw [hadded]
    exact List.forall_mem_append.2 ⟨hw, hnew⟩
  unfold macroNames at hnames
  rcases hcook : w.cook id with ⟨f | program, w₂⟩
  · simp [hcook, Except.map] at hnames
  simp only [hcook, Except.map, Prod.mk.injEq, Except.ok.injEq] at hnames
  obtain ⟨rfl, rfl⟩ := hnames
  rw [hcook] at hcompiled
  have henter := enterable_program hcompiled program
  have hfound : ∀ m ∈ (w₂.program program).macroNames, ∀ name, identifierOf m = identifierOf name →
      (w₂.program program).entries.get? (macroEntry name) = some m :=
    fun m hm name hidentifier => (henter.entries name m).2 ⟨hm, hidentifier⟩
  have hrendered : ∀ name bindings, ∀ m ∈ (w₂.program program).macroNames, identifierOf m = identifierOf name →
      ∃ body, (w₂.program program).body? m = some body ∧ w.renderMacro id name bindings =
        ((renderAlone (toDepth callDepth) program (w.template id).settings body).run
          { world := w₂, vars := bindings }).map (w.finished id bindings) := by
    intro name bindings m hm hidentifier
    obtain ⟨body, hbody⟩ := Program.exists_body?_of_mem hm
    exact ⟨body, hbody, renderEntry_of_some hcook (hfound m hm name hidentifier) (henter.named m hm) hbody bindings⟩
  refine ⟨fun m hm m' hm' hentry => ?_, fun name bindings =>
    ⟨⟨fun ⟨w₁, hmissing⟩ m hm hidentifier => ?_, fun hnone => ?_⟩, ?_⟩⟩
  · exact Option.some.inj ((hfound m hm m rfl).symm.trans (hentry ▸ hfound m' hm' m' rfl))
  · -- A render that has begun ends with a text or with a report.
    obtain ⟨body, -, hrun⟩ := hrendered name bindings m hm hidentifier
    rw [hmissing] at hrun
    obtain ⟨⟨r, st⟩, -, hend⟩ := Option.map_eq_some_iff.1 hrun.symm
    cases r <;> simp [finished, missingEntry] at hend
  · refine ⟨w₂, renderEntry_of_none hcook ?_ bindings⟩
    cases hentry : (w₂.program program).entries.get? (macroEntry name) with
    | none => rfl
    | some m => exact absurd ((henter.entries name m).1 hentry).2 (hnone m ((henter.entries name m).1 hentry).1)
  · intro m hm hidentifier
    obtain ⟨body, hbody, hrun⟩ := hrendered name bindings m hm hidentifier
    exact ⟨program, body, rfl, hbody, hrun⟩

/-- A world with one template that has not been used. -/
def withTemplate (source : Bytes) : World :=
  { settings := [{}], caches := [[]]
    templates := [{ name := utf8 "t.pt", filename := utf8 "t.pt", source, settings := 0, cache := 0 }] }

theorem macro_found_by_identifier_other_name :
    let w := withTemplate (utf8 "<i metal:define-macro=\"a-b\">x</i><i metal:define-macro=\"ä\">y</i>")
    (∀ p ∈ w.programs, p.IsCompiled) ∧ ∃ w', w.macroNames 0 = (.ok [utf8 "a-b", utf8 "ä"], w') ∧
      identifierOf (utf8 "ä") = identifierOf (utf8 "ö") ∧
      ∃ program body, w.cook 0 = (.ok program, w') ∧ (w'.program program).body? (utf8 "ä") = some body ∧
        w.renderMacro 0 (utf8 "ö") [] =
          ((renderAlone (toDepth callDepth) program (w.template 0).settings body).run { world := w', vars := [] }).map
            (w.finished 0 []) := by
  intro w
  have hcompiled : ∀ p ∈ w.programs, p.IsCompiled := fun p hp => absurd hp List.not_mem_nil
  have hnames : (w.macroNames 0).1 = .ok [utf8 "a-b", utf8 "ä"] :=
    eq_ok_of_toOption (show (w.macroNames 0).1.toOption = _ by decide +kernel)
  have hidentifier : identifierOf (utf8 "ä") = identifierOf (utf8 "ö") := by decide +kernel
  refine ⟨hcompiled, (w.macroNames 0).2, Prod.ext hnames rfl, hidentifier, ?_⟩
  exact ((macro_found_by_identifier hcompiled (Prod.ext hnames rfl)).2 (utf8 "ö") []).2 _ (by simp) hidentifier

/-- A macro is rendered for a name that no macro has. -/
theorem macro_rendered_for_other_name :
    let w := withTemplate (utf8 "<i metal:define-macro=\"a-b\">x</i>")
    (w.macroNames 0).1.toOption = some [utf8 "a-b"] ∧
      (w.renderMacro 0 (utf8 "a_b") []).bind (·.1.toOption) = some (utf8 "<i>x</i>") := by
  decide +kernel

end World

end PageTemplate
