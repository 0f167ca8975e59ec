import PageTemplate.Expression.Compile
import PageTemplate.Files
import PageTemplate.Heap
import PageTemplate.Program.Node
import PageTemplate.Settings

/-!
The objects that templates live among: settings, compiled programs, templates, program caches, loaders and
the log. Objects are named by their numbers, which never change.
-/

namespace PageTemplate

/-- A compiled expression with its number and the site that is reported when it fails. -/
structure Compiled where
  id : Nat
  evaluator : Evaluator
  site : Site
  deriving Inhabited

structure Program where
  filename : Bytes
  source : Bytes
  /-- The number of the settings it was compiled with. -/
  settings : Nat
  main : Node Compiled
  /-- The bodies of the macros in document order. -/
  macros : List (Bytes × Node Compiled)
  /-- The names of the entry points with the macros they render; the whole template has no name. -/
  entries : Assoc Bytes
  deriving Inhabited

def Program.body? (p : Program) (name : Bytes) : Option (Node Compiled) := List.lookup name p.macros

def Program.macroNames (p : Program) : List Bytes := p.macros.map (·.1)

def Program.macroTable (p : Program) (id : Nat) : Value :=
  .map .text .callable (p.macros.map fun m => (.text m.1, .namedMacro id p.filename m.1))

/-- Where template sources come from: texts by name, or the files below a directory. -/
inductive Loader where
  | texts (sources : Assoc Bytes)
  | directory (root : Bytes)
  deriving Inhabited

/-- A template, which is compiled when it is first used. -/
structure Template where
  /-- The name by which it was loaded, against which relative names are resolved. -/
  name : Bytes
  filename : Bytes
  source : Bytes
  settings : Nat
  cache : Nat
  loader : Option Nat := none
  program : Option Nat := none
  deriving Inhabited

inductive Level where
  | log
  | warn
  | error
  deriving DecidableEq, Repr, Inhabited

structure LogLine where
  settings : Nat
  level : Level
  text : Bytes
  deriving DecidableEq, Repr, Inhabited

/-- All objects, by number. -/
structure World where
  heap : Heap := {}
  settings : List Settings := []
  programs : List Program := []
  templates : List Template := []
  caches : List (Assoc Nat) := []
  loaders : List Loader := []
  log : List LogLine := []
  files : Files := fun _ => none
  /-- The expression language that templates are written in. -/
  terms : Bytes → Option Evaluator := Expression.Term.evaluator?
  /-- The files that were asked for and have not been looked at. -/
  wanted : List Bytes := []
  /-- The texts whose hashes were used as keys of programs, newest first. -/
  digested : List Bytes := []
  compared : List (Value × Value) := []
  deriving Inhabited

namespace World

def settingsOf (w : World) (id : Nat) : Settings := w.settings.getD id {}

def program (w : World) (id : Nat) : Program := w.programs.getD id default

def template (w : World) (id : Nat) : Template := w.templates.getD id default

def cache (w : World) (id : Nat) : Assoc Nat := w.caches.getD id []

def newSettings (w : World) (s : Settings) : Nat × World :=
  (w.settings.length, { w with settings := w.settings ++ [s] })

def newProgram (w : World) (p : Program) : Nat × World :=
  (w.programs.length, { w with programs := w.programs ++ [p] })

def newTemplate (w : World) (t : Template) : Nat × World :=
  (w.templates.length, { w with templates := w.templates ++ [t] })

def newCache (w : World) : Nat × World := (w.caches.length, { w with caches := w.caches ++ [[]] })

def newLoader (w : World) (l : Loader) : Nat × World :=
  (w.loaders.length, { w with loaders := w.loaders ++ [l] })

def setTemplate (w : World) (id : Nat) (t : Template) : World := { w with templates := w.templates.set id t }

def noteCompared (w : World) (a b : Value) : World := { w with compared := (a, b) :: w.compared }

/-- What a file holds. A file that has not been looked at counts as missing and is noted. -/
def readFile (w : World) (path : Bytes) : Except FileFault Bytes × World :=
  match w.files path with
  | some r => (r, w)
  | none => (.error .missing, { w with wanted := path :: w.wanted })

def logLine (w : World) (settings : Nat) (level : Level) (text : Bytes) : World :=
  if (w.settingsOf settings).quiet then w else { w with log := ⟨settings, level, text⟩ :: w.log }

def logOf (w : World) (settings : Nat) : List LogLine := (w.log.filter fun l => l.settings == settings).reverse

/-- What identifies the settings of a number as far as compiled programs go. -/
def fingerprint (w : World) (settings : Nat) : Bytes :=
  (w.settingsOf settings).fingerprint (Bytes.ofNat settings)

def translate (w : World) (settings : Nat) (m : Message) : Bytes × World :=
  let (text, failed) := translateMessage (w.settingsOf settings).hook m
  match failed with
  | some f => (text, w.logLine settings .warn f.message)
  | none => (text, w)

end World

end PageTemplate
