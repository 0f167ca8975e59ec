import PageTemplate.Expression.Compile
import PageTemplate.Markup.Token

/-!
An engine compiles expressions and remembers what each source compiled to. Registering a type forgets
everything, since it may change what any source means.
-/

namespace PageTemplate.Expression

/-- A registry with the results of earlier compilations. -/
structure Engine where
  registry : Registry
  cache : Assoc Evaluator := []
  deriving Inhabited

/-- Compiling with memory: what was remembered stays when compiling fails. -/
abbrev Engine.Compiling := ExceptT Failure (StateM (Assoc Evaluator))

namespace Engine

def initial (defaultType : Bytes) (imports : Assoc Value) : Engine := { registry := .initial defaultType imports }

def register (e : Engine) (name : Bytes) (t : ExpressionType) : Engine := { registry := e.registry.register name t }

def remember (source : Bytes) (compile : Compiling Evaluator) : Compiling Evaluator := do
  match (← get).get? source with
  | some e => return e
  | none =>
    let e ← compile
    modify fun cache => cache.insert source e
    return e

def run {α : Type} (e : Engine) (act : Compiling α) : Except Failure α × Engine :=
  let (r, cache) := act.run e.cache
  (r, { e with cache })

def compile (e : Engine) (source : Bytes) : Except Failure Evaluator × Engine :=
  e.run (compileSource e.registry remember (fuelFor source) source)

def compileAs (e : Engine) (type source : Bytes) : Except Failure Evaluator × Engine :=
  e.run (Expression.compileAs e.registry remember (fuelFor source) type source)

def compileToken (e : Engine) (t : Markup.Token) : Except Failure Evaluator × Engine :=
  match e.compile t.value with
  | (.ok x, e) => (.ok x, e)
  | (.error f, e) => (.error (t.fault .expression (utf8 "Invalid expression") (some f)), e)

def fragments (e : Engine) (text : Bytes) : Except Failure (List Fragment) × Engine :=
  e.run (Expression.fragments
    (fun s => do let _ ← compileSource e.registry remember (fuelFor s) s)
    (e.registry.defaultType == utf8 "path") text)

end Engine

end PageTemplate.Expression
