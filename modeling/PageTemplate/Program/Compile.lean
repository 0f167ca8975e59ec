import PageTemplate.Expression.Compile
import PageTemplate.Markup.Name
import PageTemplate.World

/-!
Compiling template programs. Every expression of a module is compiled once for each place it stands in, in
the order of the template: first the template itself, then its macros. The template and each macro
get an entry point, and no two macros may share one.
-/

namespace PageTemplate

def mainEntry : Bytes := utf8 "render"

def macroEntry (name : Bytes) : Bytes := mainEntry ++ Byte.underscore :: Markup.identifierOf name

namespace Module

open Expression (Registry)

def siteOf (m : Module) (e : Expr) : Site :=
  let place := e.token.location
  { expression := e.source, filename := m.filename, line := place.1, column := place.2
    source := if e.token.source.isEmpty then m.source else e.token.source, offset := e.token.pos }

def compileExpr (m : Module) (r : Registry) (e : Expr) : Except Failure Compiled :=
  match r.compile e.token.value with
  | .ok evaluator => .ok { id := e.id, evaluator, site := m.siteOf e }
  | .error f => .error (e.token.fault .expression (utf8 "Invalid expression") (some f))

/-- The compiled macros and the entry points, given those that there are already. -/
def compileMacros (m : Module) (r : Registry) :
    List (Bytes × Node Expr) → Assoc Bytes → Except Failure (List (Bytes × Node Compiled) × Assoc Bytes)
  | [], entries => .ok ([], entries)
  | (name, body) :: rest, entries =>
    let entry := macroEntry name
    match entries.get? entry with
    | some other =>
      .error (.fault .compilation none (utf8 "Macro names " ++ Text.quote other ++ utf8 " and " ++ Text.quote name ++
        utf8 " both map to entry point " ++ Text.quote entry) none)
    | none => do
      let body ← body.traverse (m.compileExpr r)
      let (macros, entries) ← m.compileMacros r rest (entries.insert entry name)
      return ((name, body) :: macros, entries)

def compile (m : Module) (r : Registry) (settings : Nat) : Except Failure Program := do
  let main ← m.body.traverse (m.compileExpr r)
  let (macros, entries) ← m.compileMacros r m.macros [(mainEntry, [])]
  return { filename := m.filename, source := m.source, settings, main, macros, entries }

end Module

end PageTemplate
