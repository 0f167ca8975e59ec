import PageTemplate.Bindings
import PageTemplate.CommandLine.Flag
import PageTemplate.Settings.File
import PageTemplate.Template.Render
import PageTemplate.Translation.Catalog

/-!
The command line: rendering a template file, and listing its tokens or its macros. Running an invocation is a function
of the arguments and of the files in the world.
-/

namespace PageTemplate

structure RenderOptions where
  config : Bytes := []
  language : Option Bytes := none
  domain : Option Bytes := none
  catalog : Bytes := []
  debug : Option Bool := none
  verbose : Bool := false
  deriving DecidableEq, Repr, Inhabited

namespace RenderOptions

def flags : List (Flag RenderOptions) := [
  ⟨utf8 "config", utf8 "JSON file with compiler settings", .text fun s o => { o with config := s }⟩,
  ⟨utf8 "lang", utf8 "target language", .text fun s o => { o with language := some s }⟩,
  ⟨utf8 "domain", utf8 "translation domain", .text fun s o => { o with domain := some s }⟩,
  ⟨utf8 "po", utf8 "PO file with translations", .text fun s o => { o with catalog := s }⟩,
  ⟨utf8 "debug", utf8 "list the bindings in error reports", .switch fun b o => { o with debug := some b }⟩,
  ⟨utf8 "v", utf8 "log compiler activity to stderr", .switch fun b o => { o with verbose := b }⟩]

def apply (o : RenderOptions) (s : Settings) : Settings :=
  { s with
    language := o.language.getD s.language
    domain := o.domain.getD s.domain
    debug := o.debug.getD s.debug
    quiet := !o.verbose }

end RenderOptions

inductive Invocation where
  /-- The usage, which is an answer only to those who ask for it. -/
  | usage (wanted : Bool)
  | render (options : RenderOptions) (template : Bytes) (bindings : Option Bytes)
  | tokens (path : Bytes)
  | macros (path : Bytes)
  | refused (command advice reason : Bytes)
  deriving Inhabited

namespace Invocation

def usageText : Bytes := utf8 "chameleon-go - page template compiler
Usage: chameleon-go <command> [args]

Commands:
  render [flags] <file> [bindings.json]   Render a template
  tokens <file>                           List the tokens of a template
  macros <file>                           List the macros of a template
  help                                    Show help

Render flags:
  -config <file>   JSON file with compiler settings
  -lang <code>     target language
  -domain <name>   translation domain
  -po <file>       PO file with translations for -lang and -domain
  -debug           list the bindings in error reports
  -v               log compiler activity to stderr
"

def ofFile (command : Bytes) (make : Bytes → Invocation) : List Bytes → Invocation
  | [path] => make path
  | _ => refused command [] (utf8 "expected one template file")

def ofRender (command : Bytes) (args : List Bytes) : Invocation :=
  match Flag.readAll RenderOptions.flags {} args with
  | .error fault =>
    let line := if fault = .helpWanted then [] else fault.message ++ [Byte.newline]
    refused command (line ++ Flag.usage command RenderOptions.flags) fault.message
  | .ok (options, [template]) => render options template none
  | .ok (options, [template, bindings]) => render options template (some bindings)
  | .ok _ => refused command [] (utf8 "expected a template file and an optional bindings file")

def ofArgs : List Bytes → Invocation
  | [] => usage false
  | command :: args =>
    if command = utf8 "help" then usage true
    else if command = utf8 "render" then ofRender command args
    else if command = utf8 "tokens" then ofFile command tokens args
    else if command = utf8 "macros" then ofFile command macros args
    else usage false

end Invocation

namespace Command

abbrev Run := ExceptT Failure (StateM World)

def step {α : Type} (f : World → α × World) : Run α := modifyGet f

def attempt {α : Type} (f : World → Except Failure α × World) : Run α := do
  match ← step f with
  | .ok a => return a
  | .error e => throw e

def contents (path : Bytes) : Run Bytes :=
  attempt fun w =>
    let (r, w) := w.readFile path
    (r.mapError (·.failure path), w)

/-- The settings that a file gives. A failure names the file by its place below the root. -/
def settingsFile (home path : Bytes) : Run SettingsFile :=
  attempt fun w =>
    let path := Path.absolute home path
    let (r, w) := w.readFile path
    (SettingsFile.read path r, w)

def catalogFile (path domain language : Bytes) : Run (Catalog × Bytes) := do
  let r ← step (·.readFile path)
  match r with
  | .error .directory => throw (.wrapped path (FileFault.directory.failure path))
  | .error fault => throw (fault.failure path)
  | .ok text =>
    match ({} : Catalog).read text domain language with
    | (catalog, .ok line) => return (catalog, line)
    | (_, .error f) => throw (.wrapped path f)

def bindingsFile (path : Bytes) : Run Vars := do
  match bindingsOfText? (← contents path) with
  | some vars => return vars
  | none => throw (.wrapped (utf8 "bindings") JsonText.failure)

def render (home : Bytes) (o : RenderOptions) (path : Bytes) (bindings : Option Bytes) : Run Bytes := do
  let file ← if o.config.isEmpty then pure none else some <$> settingsFile home o.config
  let s := o.apply ((file.map (·.apply {})).getD {})
  let catalog ← if o.catalog.isEmpty then pure none else some <$> catalogFile o.catalog s.domain s.language
  let settings ← step (·.newSettings { s with hook := catalog.map (·.1.hook) })
  if let some (_, line) := catalog then
    modify fun w => w.logLine settings .log line
  let vars ← (bindings.map bindingsFile).getD (pure [])
  let cache ← step (·.newCache)
  let loader ← step (·.newLoader (.directory (Path.directory path)))
  let template ← attempt (·.loadTemplate loader (Path.base path) settings cache)
  attempt fun w => (w.render template vars).getD (.error (.plain (utf8 "macros are nested too deeply")), w)

/-- The list of the tokens of a template file: their places, kinds and texts. -/
def tokens (path : Bytes) : Run Bytes := do
  let text ← contents path
  return (Markup.tokenize text path).flatMap fun t =>
    Bytes.ofNat t.location.1 ++ Byte.colon :: Bytes.ofNat t.location.2 ++ Byte.tab :: t.kind.name ++
      Byte.tab :: Text.quote t.value ++ [Byte.newline]

def macros (path : Bytes) : Run Bytes := do
  let source ← contents path
  let settings ← step (·.newSettings { quiet := true })
  let cache ← step (·.newCache)
  let template ← step (·.newTemplate { name := path, filename := path, source, settings, cache })
  let names ← attempt (·.macroNames template)
  return names.flatMap (· ++ [Byte.newline])

end Command

structure Outcome where
  exit : Nat
  stdout : Bytes := []
  stderr : Bytes := []
  /-- The files that have to be looked at before the outcome is certain. -/
  wanted : List Bytes := []
  deriving DecidableEq, Repr, Inhabited

def Outcome.complaint (command reason : Bytes) : Bytes := command ++ utf8 " error: " ++ reason ++ [Byte.newline]

def LogLine.shown (stamp : Bytes) (l : LogLine) : Bytes :=
  let line (level : String) : Bytes :=
    utf8 "time=" ++ stamp ++ utf8 " level=" ++ utf8 level ++ utf8 " msg=" ++ Text.quote l.text ++ [Byte.newline]
  match l.level with
  | .log => []
  | .warn => line "WARN"
  | .error => line "ERROR"

def Command.outcome (stamp command : Bytes) (files : Files) (run : Command.Run Bytes) : Outcome :=
  let (r, w) : Except Failure Bytes × World := run.run { files }
  let log := w.log.reverse.flatMap (·.shown stamp)
  match r with
  | .ok text => { exit := 0, stdout := text, stderr := log, wanted := w.wanted }
  | .error f => { exit := 1, stderr := log ++ Outcome.complaint command f.message, wanted := w.wanted }

namespace Invocation

/-- Runs an invocation among files, from a home directory, with the time that log lines bear. -/
def run (home stamp : Bytes) (files : Files) : Invocation → Outcome
  | usage wanted => { exit := if wanted then 0 else 1, stdout := usageText }
  | render options template bindings =>
    Command.outcome stamp (utf8 "render") files do
      let text ← Command.render home options template bindings
      return text ++ [Byte.newline]
  | tokens path => Command.outcome stamp (utf8 "tokens") files (Command.tokens path)
  | macros path => Command.outcome stamp (utf8 "macros") files (Command.macros path)
  | refused command advice reason => { exit := 1, stderr := advice ++ Outcome.complaint command reason }

end Invocation

end PageTemplate
