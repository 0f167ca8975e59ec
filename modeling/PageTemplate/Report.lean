import PageTemplate.Value.Display

/-!
Reports on failed renders: the failure, where its expression stands, the source line with the expression
underlined and, if wanted, the variables the render was given.
-/

namespace PageTemplate.Report

def summaryWidth : Nat := 60

/-- A value on one line, with its type, shortened to the greatest width. -/
def summary (v : Value) : Bytes :=
  let s := utf8 "<" ++ v.typeName ++ utf8 "> " ++ v.display
  let s := s.map fun b => if b = Byte.newline then Byte.space else b
  if s.length > summaryWidth then s.take (summaryWidth - 3) ++ utf8 "..." else s

/-- The source line of an expression and a line that underlines it. -/
def excerpt (site : Site) : Option (Bytes × Bytes) :=
  match site.offset with
  | .negSucc _ => none
  | .ofNat offset =>
    if site.source.isEmpty || offset > site.source.length then none
    else
      let before := Bytes.lastLine (site.source.take offset)
      let after := Bytes.firstLine (site.source.drop offset)
      let width := max 1 (min (max 1 site.expression.length) after.length)
      some (before ++ after, Bytes.replicate before.length [Byte.space] ++ Bytes.replicate width [Byte.caret])

def indent : Bytes := utf8 "\n               "

/-- The section that says where the expression stands. -/
def siteSection (site : Site) : Bytes :=
  utf8 "\n - Expression: " ++ Text.quote site.expression ++ utf8 "\n - Filename:   " ++ site.filename ++
    utf8 "\n - Location:   (line " ++ Bytes.ofInt site.line ++ utf8 ": col " ++ Bytes.ofInt site.column ++ utf8 ")" ++
    match excerpt site with
    | some (line, marker) =>
      if line.isEmpty then [] else utf8 "\n - Source:     " ++ line ++ indent ++ marker
    | none => []

def bindingsSection (bindings : Assoc Value) : Bytes :=
  utf8 "\n - Arguments:  " ++
    Bytes.join indent ((Assoc.sorted bindings).map fun e => e.1 ++ utf8 ": " ++ summary e.2)

def render (f : Failure) (site : Option Site) (bindings : Option (Assoc Value)) : Bytes :=
  let site := site <|> f.site?.map (·.1)
  let cause := f.cause
  cause.name ++ utf8 ": " ++ cause.message ++ utf8 "\n" ++
    match site with
    | none => []
    | some site => siteSection site ++ ((bindings.map bindingsSection).getD []) ++ utf8 "\n"

end PageTemplate.Report
