import PageTemplate.Digest
import PageTemplate.Markup.Tree.Parser
import PageTemplate.Program.Builder
import PageTemplate.Program.Compile

/-!
Templates: their sources, how they are found by name, and how they are compiled. A template is compiled
when it is first needed. Templates that share a cache share their programs, as long as the file
name, the source and the settings that change the program are the same.
-/

namespace PageTemplate

open Expression (Registry)

/-- A template source with the name it was found under. -/
structure SourceText where
  name : Bytes
  filename : Bytes
  text : Bytes
  deriving DecidableEq, Repr, Inhabited

/-- The name of a template that another one refers to. A name without a leading slash is relative to the
directory of the template that uses it. -/
def resolveName (name parent : Bytes) : Bytes :=
  let name := Text.trim name
  if name.head? = some Byte.slash || parent.isEmpty then
    let path := Path.clean name
    if path.head? = some Byte.slash then path.drop 1 else path
  else Path.join (Path.directory parent) name

def Loader.insert (l : Loader) (name text : Bytes) : Loader :=
  match l with
  | texts sources => texts (sources.insert name text)
  | directory root => directory root

def Settings.registry (s : Settings) : Registry := .initial s.expressionType s.imports

def compileTemplate (r : Registry) (filename source : Bytes) (settings : Nat) : Except Failure Program := do
  let tree ← Markup.parse source filename
  let m ← Builder.build r filename source tree
  m.compile r settings

namespace World

def keyText (w : World) (filename source : Bytes) (settings : Nat) : Bytes :=
  Bytes.join [Byte.nul] [filename, source, w.fingerprint settings]

def programKey (w : World) (filename source : Bytes) (settings : Nat) : Bytes :=
  digest [filename, source, w.fingerprint settings]

def registryOf (w : World) (id : Nat) : Registry :=
  let r := { (w.settingsOf (w.template id).settings).registry with terms := w.terms }
  r.register (utf8 "load") ⟨.load id, false⟩

def keepProgram (w : World) (id : Nat) (key : Bytes) (program : Program) : World :=
  let t := w.template id
  let (p, w) := w.newProgram program
  let w := { w with
    caches := w.caches.modify t.cache (·.insert key p)
    templates := w.templates.set id { t with program := some p } }
  w.logLine t.settings .log
    (utf8 "cooked " ++ t.filename ++ utf8 " (" ++ Bytes.ofNat program.macros.length ++ utf8 " macros)")

/-- The compiled program of a template, which is kept. A program that its cache has already is used again. -/
def cook (w : World) (id : Nat) : Except Failure Nat × World :=
  let t := w.template id
  match t.program with
  | some p => (.ok p, w)
  | none =>
    let key := w.programKey t.filename t.source t.settings
    let w := { w with digested := w.keyText t.filename t.source t.settings :: w.digested }
    match (w.cache t.cache).get? key with
    | some p => (.ok p, w.setTemplate id { t with program := some p })
    | none =>
      match compileTemplate (w.registryOf id) t.filename t.source t.settings with
      | .error f => (.error f, w)
      | .ok program => (.ok w.programs.length, w.keepProgram id key program)

/-- A program that was asked for, as a value, bound to the settings that it was compiled with. -/
def programValue : Except Failure Nat × World → Except Failure Value × World
  | (r, w) => (r.map fun p => .program p (w.program p).settings, w)

def invalidate (w : World) (id : Nat) : World :=
  let t := w.template id
  (w.setTemplate id { t with program := none }).logLine t.settings .log (utf8 "invalidated " ++ t.filename)

def reload (w : World) (id : Nat) (source : Bytes) : World :=
  (w.setTemplate id { w.template id with source }).invalidate id

def macroNames (w : World) (id : Nat) : Except Failure (List Bytes) × World :=
  let (r, w) := w.cook id
  (r.map fun p => (w.program p).macroNames, w)

def loadSource (w : World) (loader : Nat) (name : Bytes) : Except Failure SourceText × World :=
  match w.loaders.getD loader default with
  | .texts sources =>
    match sources.get? name with
    | some text => (.ok ⟨name, name, text⟩, w)
    | none => (.error (.notFound name), w)
  | .directory root =>
    let filename := Path.join root name
    match w.readFile filename with
    | (.ok text, w) => (.ok ⟨name, filename, text⟩, w)
    | (.error .missing, w) => (.error (.notFound name), w)
    | (.error fault, w) => (.error (fault.failure filename), w)

def loadTemplate (w : World) (loader : Nat) (name : Bytes) (settings cache : Nat) : Except Failure Nat × World :=
  match w.loadSource loader name with
  | (.error f, w) => (.error f, w)
  | (.ok s, w) =>
    let (id, w) := w.newTemplate
      { name := s.name, filename := s.filename, source := s.text, settings, cache, loader := some loader }
    (.ok id, w)

def loadProgram (w : World) (id : Nat) (name : Bytes) : Except Failure Nat × World :=
  let t := w.template id
  match t.loader with
  | none =>
    (.error (.lookup name (utf8 "cannot load " ++ Text.quote name ++ utf8 " without a loader")), w)
  | some loader =>
    match w.loadTemplate loader (resolveName name t.name) t.settings t.cache with
    | (.ok child, w) => w.cook child
    | (.error (.notFound missing), w) => (.error (.lookup name (Failure.notFound missing).message), w)
    | (.error f, w) => (.error f, w)

end World

end PageTemplate
