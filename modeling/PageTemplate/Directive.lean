import PageTemplate.Markup.Tree

/-!
The directives of the template language: attributes in one of the three directive namespaces. An
element carries each directive at most once, and some exclude each other.
-/

namespace PageTemplate

inductive Directive where
  | define
  | condition
  | loop
  | attributes
  | content
  | replace
  | omitTag
  | onError
  | switch
  | case
  | defineMacro
  | useMacro
  | extendMacro
  | defineSlot
  | fillSlot
  | translate
  | name
  | domain
  | translatedAttributes
  deriving DecidableEq, Repr, Inhabited

namespace Directive

open Markup (Key)

/-- The attribute names of the directives, by namespace. -/
def table : List (Key × Directive) :=
  [(⟨Markup.Namespace.tal, utf8 "define"⟩, define), (⟨Markup.Namespace.tal, utf8 "condition"⟩, condition),
    (⟨Markup.Namespace.tal, utf8 "repeat"⟩, loop), (⟨Markup.Namespace.tal, utf8 "attributes"⟩, attributes),
    (⟨Markup.Namespace.tal, utf8 "content"⟩, content), (⟨Markup.Namespace.tal, utf8 "replace"⟩, replace),
    (⟨Markup.Namespace.tal, utf8 "omit-tag"⟩, omitTag), (⟨Markup.Namespace.tal, utf8 "on-error"⟩, onError),
    (⟨Markup.Namespace.tal, utf8 "switch"⟩, switch), (⟨Markup.Namespace.tal, utf8 "case"⟩, case),
    (⟨Markup.Namespace.metal, utf8 "define-macro"⟩, defineMacro), (⟨Markup.Namespace.metal, utf8 "use-macro"⟩, useMacro),
    (⟨Markup.Namespace.metal, utf8 "extend-macro"⟩, extendMacro), (⟨Markup.Namespace.metal, utf8 "define-slot"⟩, defineSlot),
    (⟨Markup.Namespace.metal, utf8 "fill-slot"⟩, fillSlot), (⟨Markup.Namespace.i18n, utf8 "translate"⟩, translate),
    (⟨Markup.Namespace.i18n, utf8 "name"⟩, name), (⟨Markup.Namespace.i18n, utf8 "domain"⟩, domain),
    (⟨Markup.Namespace.i18n, utf8 "attributes"⟩, translatedAttributes)]

def ofKey? (k : Key) : Option Directive := List.lookup k table

def namespaceLabel (ns : Bytes) : Bytes :=
  if ns = Markup.Namespace.tal then utf8 "tal" else if ns = Markup.Namespace.metal then utf8 "metal" else utf8 "i18n"

end Directive

/-- The directives on one element with their attributes. -/
abbrev Directives := List (Directive × Markup.RawAttribute)

namespace Directives

open Markup (RawAttribute Attribute Token)

def raw? (ds : Directives) (d : Directive) : Option RawAttribute := List.lookup d ds

def has (ds : Directives) (d : Directive) : Bool := (ds.raw? d).isSome

def clause? (ds : Directives) (d : Directive) : Option Token := (ds.raw? d).map (·.value)

def classify : List Attribute → Directives → Except Failure (Directives × List RawAttribute)
  | [], ds => .ok (ds, [])
  | a :: as, ds =>
    if Markup.Namespace.isDirective a.key.space then
      match Directive.ofKey? a.key with
      | none =>
        .error (a.raw.name.fault .language
          (utf8 "Unknown " ++ Directive.namespaceLabel a.key.space ++ utf8 " directive"))
      | some d =>
        if ds.has d then .error (a.raw.name.fault .language (utf8 "Duplicate directive"))
        else classify as ((d, a.raw) :: ds)
    else if a.key.space = Markup.Namespace.xmlns && Markup.Namespace.isDirective a.raw.value.value then classify as ds
    else do
      let (ds, others) ← classify as ds
      return (ds, a.raw :: others)

def reject (ds : Directives) (d : Directive) (kind : FaultKind) (summary : String) : Except Failure Unit :=
  match ds.raw? d with
  | some a => .error (a.name.fault kind (utf8 summary))
  | none => .ok ()

def checkExclusions (ds : Directives) (inNamespace : Bool) : Except Failure Unit := do
  if ds.has .content && ds.has .replace then
    ds.reject .replace .language "tal:content and tal:replace are mutually exclusive"
  if ((ds.clause? .translate).map fun t => !(Text.trim t.value).isEmpty).getD false &&
      (ds.has .content || ds.has .replace) then
    ds.reject .translate .language
      "i18n:translate with a message id cannot be combined with tal:content or tal:replace"
  if ds.has .attributes && inNamespace then
    ds.reject .attributes .language "Dynamic attributes are not allowed on elements of a directive namespace"
  if ds.has .defineMacro && ds.has .useMacro then
    ds.reject .useMacro .compilation
      "metal:define-macro and metal:use-macro are mutually exclusive; use metal:extend-macro"
  if ds.has .useMacro && ds.has .extendMacro then
    ds.reject .extendMacro .language "metal:use-macro and metal:extend-macro are mutually exclusive"

end Directives

end PageTemplate
