import PageTemplate.Files
import PageTemplate.JsonText
import PageTemplate.Settings
import PageTemplate.Text.LetterCase

/-!
Settings kept in a file. The file holds a JSON object; the case of its keys does not matter, keys that
name no setting are passed over, and of repeated keys the last one counts.
-/

namespace PageTemplate

structure SettingsFile where
  expressionType : Bytes := []
  debug : Bool := false
  booleanAttributes : Option Bool := none
  language : Bytes := []
  domain : Bytes := []
  deriving DecidableEq, Repr, Inhabited

namespace SettingsFile

def text? : JsonValue → Option (Option Bytes)
  | .null => some none
  | .text s => some (some s)
  | _ => none

def bool? : JsonValue → Option (Option Bool)
  | .null => some none
  | .bool b => some (some b)
  | _ => none

/-- The settings after one more member of the object. -/
def insert? (f : SettingsFile) (key : Bytes) (v : JsonValue) : Option SettingsFile :=
  let is (name : String) : Bool := Text.equalFold key (utf8 name)
  if is "defaultExpression" then (text? v).map fun s => { f with expressionType := s.getD f.expressionType }
  else if is "debug" then (bool? v).map fun b => { f with debug := b.getD f.debug }
  else if is "booleanAttributes" then (bool? v).map fun b => { f with booleanAttributes := b }
  else if is "targetLanguage" then (text? v).map fun s => { f with language := s.getD f.language }
  else if is "domain" then (text? v).map fun s => { f with domain := s.getD f.domain }
  else some f

/-- The settings that a text gives, if it writes an object of the right form. -/
def ofText? (s : Bytes) : Option SettingsFile :=
  match JsonText.read? s with
  | some .null => some {}
  | some (.object members) => members.foldlM (fun f m => f.insert? m.1 m.2) {}
  | _ => none

def read (path : Bytes) : Except FileFault Bytes → Except Failure SettingsFile
  | .error fault => .error (.wrapped (utf8 "failed to read config") (fault.failure path))
  | .ok s =>
    match ofText? s with
    | some f => .ok f
    | none => .error (.wrapped (utf8 "failed to parse config") JsonText.failure)

def apply (f : SettingsFile) (s : Settings) : Settings :=
  { s with
    expressionType := if f.expressionType.isEmpty then s.expressionType else f.expressionType
    debug := f.debug
    booleanAttributes := f.booleanAttributes.getD s.booleanAttributes
    language := if f.language.isEmpty then s.language else f.language
    domain := if f.domain.isEmpty then s.domain else f.domain }

end SettingsFile

end PageTemplate
