import PageTemplate.Translation
import PageTemplate.Value

/-!
Settings for compiling and rendering templates. Some of them change the compiled program; their
fingerprint tells whether programs can be shared. The others are looked at while rendering.
-/

namespace PageTemplate

structure Settings where
  expressionType : Bytes := utf8 "expr"
  /-- Whether reports list the variables. -/
  debug : Bool := false
  booleanAttributes : Bool := true
  language : Bytes := []
  domain : Bytes := []
  hook : Option Hook := none
  imports : Assoc Value := []
  /-- The variables that every scope has unless it defines them. -/
  builtins : Assoc Value := []
  /-- Whether log lines are dropped. -/
  quiet : Bool := false
  deriving Inhabited

namespace Settings

/-- What identifies the settings that change the compiled program. Imports are identified by their names and
by the text that stands for the table they come from. -/
def fingerprint (s : Settings) (table : Bytes) : Bytes :=
  let names := Bytes.join [Byte.comma] (Bytes.sort s.imports.keys)
  utf8 "expr=" ++ s.expressionType ++ utf8 ";bool=" ++ utf8 (if s.booleanAttributes then "true" else "false") ++
    utf8 ";imports=" ++ names ++ if s.imports.isEmpty then [] else utf8 "@" ++ table

end Settings

end PageTemplate
