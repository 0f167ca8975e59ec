import PageTemplate.Render
import PageTemplate.Report

/-!
Rendering templates. A template is compiled if need be, its program is bound to the settings of the
template, and the text or the report on what failed is handed back. A failed render is logged.
-/

namespace PageTemplate.World

/-- How deeply calls of macros may be nested. -/
def callDepth : Nat := 3000

def reportOf (w : World) (settings : Nat) (f : Failure) (remote : Remote) (bindings : Vars) : Bytes :=
  let shown :=
    if (w.settingsOf settings).debug then some (bindings.map fun b => (b.1, w.heap.resolve b.2)) else none
  Report.render f (remote.errors.head?.map (·.1)) shown

def renderEntry (w : World) (id : Nat) (entry : Bytes) (bindings : Vars) : Option (Except Failure Bytes × World) :=
  let t := w.template id
  match w.cook id with
  | (.error f, w) => some (.error f, w)
  | (.ok program, w) =>
    match (w.program program).entries.get? entry with
    | none =>
      some (.error (.lookup entry (t.filename ++ utf8 " has no entry point " ++ Text.quote entry)), w)
    | some name => do
      let (r, st) ← (Render.renderEntry (Render.toDepth callDepth) program t.settings name []).run
        { world := w, vars := bindings }
      match r with
      | .ok () => return (.ok st.out.text, st.world)
      | .error f =>
        let report := st.world.reportOf t.settings f st.remote bindings
        return (.error (.report report f), st.world.logLine t.settings .error report)

def render (w : World) (id : Nat) (bindings : Vars) : Option (Except Failure Bytes × World) :=
  w.renderEntry id mainEntry bindings

def renderMacro (w : World) (id : Nat) (name : Bytes) (bindings : Vars) : Option (Except Failure Bytes × World) :=
  w.renderEntry id (macroEntry name) bindings

def includeTemplate (w : World) (id : Nat) (vars : Vars) : Option (Except Failure Unit × Render.State) :=
  (Render.renderMacro (Render.toDepth callDepth) [] (.template id (w.template id).filename)).run
    { world := w, vars }

end PageTemplate.World
