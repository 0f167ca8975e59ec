import PageTemplate.Source.Location
import PageTemplate.Text.Quoted

/-!
What can go wrong, as causes. A failure found while a template is prepared is a fault with a kind and
a span; failures of evaluation say what was missing or unfit; wrapping failures add a location or a
context. The wording of every failure is in `Failure.message`.
-/

namespace PageTemplate

/-- The classes of faults found while a template is prepared. -/
inductive FaultKind where
  | parse
  | language
  | expression
  | compilation
  | translation
  | other (code : Int)
  deriving DecidableEq, Repr, Inhabited

namespace FaultKind

def name : FaultKind → Bytes
  | parse => utf8 "ParseError"
  | language => utf8 "LanguageError"
  | expression => utf8 "ExpressionError"
  | compilation => utf8 "CompilationError"
  | translation => utf8 "TranslationError"
  | other n => utf8 "ErrorKind(" ++ Bytes.ofInt n ++ utf8 ")"

end FaultKind

/-- Where an expression stands, as shown in reports. -/
structure Site where
  expression : Bytes := []
  filename : Bytes := []
  line : Int := 0
  column : Int := 0
  source : Bytes := []
  offset : Int := 0
  deriving DecidableEq, Repr, Inhabited

/-- The ways in which preparing or rendering a template fails. -/
inductive Failure where
  /-- A variable has no value. -/
  | undefined (name : Bytes)
  /-- A member, key or index cannot be found; an empty message stands for the usual one. -/
  | lookup (key message : Bytes)
  /-- An operation met a value of the wrong type. -/
  | type (message : Bytes)
  /-- A value of the right type cannot be used. -/
  | value (message : Bytes)
  /-- The translation hook gave up on a message. -/
  | translation (msgid reason : Bytes)
  /-- A loader knows no template of this name. -/
  | notFound (name : Bytes)
  | plain (message : Bytes)
  | wrapped (context : Bytes) (cause : Failure)
  /-- A failure of the expression language itself, perhaps raised by a host function. -/
  | expression (cause : Option Failure)
  | file (operation path reason : Bytes)
  /-- A fault found while the template was prepared. -/
  | fault (kind : FaultKind) (span : Option Span) (summary : Bytes) (related : Option Failure)
  | located (site : Site) (cause : Failure)
  | report (text : Bytes) (cause : Failure)
  deriving Inhabited

/-- The wording of the expression language's own failures is left open; this text stands for it. -/
def unspecifiedWording : Bytes := utf8 "<expr-lang>"

def spanText (span : Option Span) : Bytes := (span.map Span.text).getD []

def spanStart (span : Option Span) : Option Location := span.bind (·.start)

namespace Failure

def message : Failure → Bytes
  | undefined name => utf8 "name " ++ Text.quote name ++ utf8 " is not defined"
  | lookup key msg => if msg.isEmpty then utf8 "cannot resolve " ++ Text.quote key else msg
  | type msg => msg
  | value msg => msg
  | translation msgid reason =>
    utf8 "translation of " ++ Text.quote msgid ++ utf8 " failed: " ++ reason
  | notFound name => utf8 "template " ++ Text.quote name ++ utf8 " not found"
  | plain msg => msg
  | wrapped context cause => context ++ utf8 ": " ++ cause.message
  | expression _ => unspecifiedWording
  | file operation path reason => operation ++ utf8 " " ++ path ++ utf8 ": " ++ reason
  | fault kind span summary related =>
    let text := spanText span
    let quoted := if text.isEmpty then [] else utf8 " " ++ Text.quote text
    let because :=
      match related with
      | some r => utf8 ": " ++ r.message
      | none => []
    let place :=
      match spanStart span with
      | some l => utf8 " - " ++ l.text
      | none => []
    kind.name ++ utf8 ": " ++ summary ++ quoted ++ because ++ place
  | located site cause =>
    cause.message ++ utf8 " (" ++ site.filename ++ utf8 ":" ++ Bytes.ofInt site.line ++ utf8 ":" ++
      Bytes.ofInt site.column ++ utf8 ")"
  | report text _ => text

/-- The failure with the source around its place: the summary, then the text before and after a mark. -/
def contextualMessage (span : Option Span) (summary : Bytes) : Bytes :=
  match (spanStart span).bind (·.surroundings 100 3) with
  | some s =>
    summary ++ utf8 " (\"" ++ s.before ++ utf8 "[ERROR ->]" ++ s.after ++ utf8 "\")"
  | none => summary

/-- A failure and the ones it wraps, outermost first. -/
def chain : Failure → List Failure
  | wrapped context cause => wrapped context cause :: cause.chain
  | expression (some cause) => expression (some cause) :: cause.chain
  | fault kind span summary (some related) => fault kind span summary (some related) :: related.chain
  | located site cause => located site cause :: cause.chain
  | report text cause => report text cause :: cause.chain
  | f => [f]

/-- Whether the failure says that something named was missing or unfit, so that another alternative
may be tried instead. -/
def isMissing : Failure → Bool
  | undefined _ | lookup _ _ | type _ | value _ => true
  | _ => false

def fallsThrough (f : Failure) : Bool := f.chain.any isMissing

def site? (f : Failure) : Option (Site × Failure) :=
  f.chain.findSome? fun
    | located site cause => some (site, cause)
    | _ => none

def cause (f : Failure) : Failure :=
  match f.site? with
  | some (_, c) => c
  | none => f

def className : Failure → Bytes
  | undefined _ => utf8 "NameError"
  | lookup _ _ => utf8 "LookupError"
  | type _ => utf8 "TypeError"
  | value _ => utf8 "ValueError"
  | translation _ _ => utf8 "TranslateError"
  | notFound _ => utf8 "NotFoundError"
  | plain _ => utf8 "errorString"
  | wrapped _ _ => utf8 "wrapError"
  | expression _ => utf8 "Error"
  | file _ _ _ => utf8 "PathError"
  | fault _ _ _ _ => utf8 "ParseError"
  | located _ _ => utf8 "RenderError"
  | report _ _ => utf8 "TemplateError"

def name (f : Failure) : Bytes := f.cause.className

end Failure

end PageTemplate
