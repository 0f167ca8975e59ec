import PageTemplate.Program.Node

/-!
Outlines of template programs, one line per node, indented by depth. Sequences have no line of their own.
-/

namespace PageTemplate

def Operand.outline : Operand Expr → Bytes
  | literal s => Text.quote s
  | expr e => utf8 "expr(" ++ e.source ++ utf8 ")"
  | interpolated s _ => utf8 "interpolated(" ++ Text.quote s ++ utf8 ")"
  | isDefault e => utf8 "is-default(" ++ e.source ++ utf8 ")"
  | not o => utf8 "not(" ++ o.outline ++ utf8 ")"
  | missing => utf8 "<nil>"

def Expr.outline (e : Expr) : Bytes := (Operand.expr e).outline

def Assignment.outline (a : Assignment Expr) : Bytes :=
  (if a.isGlobal then utf8 "global " else []) ++ Bytes.join [Byte.comma] a.names ++ [Byte.equals] ++ a.expr.outline

def boolText (b : Bool) : Bytes := utf8 (if b then "true" else "false")

namespace Node

def outlineLine (depth : Nat) (parts : List Bytes) : Bytes :=
  Bytes.replicate depth (utf8 "  ") ++ parts.flatten

mutual

def outlineAt (depth : Nat) : Node Expr → List Bytes
  | absent => []
  | sequence nodes => outlineAll depth nodes
  | text s => [outlineLine depth [utf8 "Text ", Text.quote s]]
  | interpolation s _ => [outlineLine depth [utf8 "Interpolation ", Text.quote s]]
  | element n start body stop =>
    outlineLine depth [utf8 "Element ", n] ::
      (start.outlineAt (depth + 1) ++ body.outlineAt (depth + 1) ++ stop.outlineAt (depth + 1))
  | startTag lead n attributes tail =>
    outlineLine depth [utf8 "StartTag ", Text.quote (lead ++ n), utf8 " ", Text.quote tail] ::
      outlineAll (depth + 1) attributes
  | attr a =>
    [outlineLine depth [utf8 "Attribute ", a.name, utf8 " ", a.value.outline,
      (match a.written with
      | some s => utf8 " default=" ++ Text.quote s
      | none => []),
      if a.translate then utf8 " translate=" ++ Text.quote a.msgid else []]]
  | attributeMap e exclude =>
    [outlineLine depth [utf8 "AttributeMap ", e.outline, utf8 " exclude=[", Bytes.join [Byte.space] exclude, utf8 "]"]]
  | condition test yes no =>
    outlineLine depth [utf8 "Condition ", test.outline] :: (yes.outlineAt (depth + 1) ++
      (if no.isPresent then outlineLine depth [utf8 "Else"] :: no.outlineAt (depth + 1) else []))
  | loop names e body _ =>
    outlineLine depth [utf8 "Repeat ", Bytes.join [Byte.comma] names, utf8 " ", e.outline] ::
      body.outlineAt (depth + 1)
  | define assignments body =>
    outlineLine depth [utf8 "Define ", Bytes.join (utf8 "; ") (assignments.map Assignment.outline)] ::
      body.outlineAt (depth + 1)
  | cache exprs body =>
    outlineLine depth [utf8 "Cache ", Bytes.join [Byte.space] (exprs.map Expr.outline)] :: body.outlineAt (depth + 1)
  | content e raw translated =>
    [outlineLine depth [utf8 "Content ", e.outline, if raw then utf8 " structure" else [],
      if translated then utf8 " translate" else []]]
  | translate msgid body => outlineLine depth [utf8 "Translate ", Text.quote msgid] :: body.outlineAt (depth + 1)
  | name n body => outlineLine depth [utf8 "Name ", n] :: body.outlineAt (depth + 1)
  | domain n body => outlineLine depth [utf8 "Domain ", n] :: body.outlineAt (depth + 1)
  | onError body fallback =>
    outlineLine depth [utf8 "OnError"] :: (body.outlineAt (depth + 1) ++
      outlineLine depth [utf8 "Fallback"] :: fallback.outlineAt (depth + 1))
  | macroDef n body => outlineLine depth [utf8 "Macro ", n] :: body.outlineAt (depth + 1)
  | useInternal n slots extend =>
    outlineLine depth [utf8 "UseInternalMacro ", n, utf8 " extend=", boolText extend] :: outlineSlots (depth + 1) slots
  | useExternal e slots extend =>
    outlineLine depth [utf8 "UseExternalMacro ", e.outline, utf8 " extend=", boolText extend] ::
      outlineSlots (depth + 1) slots
  | fillSlot n body => outlineLine depth [utf8 "FillSlot ", n] :: body.outlineAt (depth + 1)
  | defineSlot n body => outlineLine depth [utf8 "DefineSlot ", n] :: body.outlineAt (depth + 1)
  | switch id e body =>
    outlineLine depth [utf8 "Switch ", Bytes.ofInt id, utf8 " ", e.outline] :: body.outlineAt (depth + 1)
  | case id value body =>
    outlineLine depth [utf8 "Case ", Bytes.ofInt id, utf8 " ", (value.map Expr.outline).getD (utf8 "<nil>")] ::
      body.outlineAt (depth + 1)
  | omitted => [outlineLine depth [utf8 "Omitted"]]
  | module filename body => outlineLine depth [utf8 "Module ", filename] :: body.outlineAt (depth + 1)

def outlineAll (depth : Nat) : List (Node Expr) → List Bytes
  | [] => []
  | n :: ns => n.outlineAt depth ++ outlineAll depth ns

def outlineSlots (depth : Nat) : List (Bytes × Node Expr) → List Bytes
  | [] => []
  | (s, n) :: rest =>
    outlineLine depth [utf8 "FillSlot ", s] :: (n.outlineAt (depth + 1) ++ outlineSlots depth rest)

end

def outline (n : Node Expr) : Bytes := (n.outlineAt 0).flatMap (· ++ [Byte.newline])

end Node

end PageTemplate
