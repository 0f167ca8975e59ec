import PageTemplate.Markup.Token

/-!
The nodes of a template program: what remains of a template when its directives have been understood. Nodes are
parametric in what stands for an expression; `Node.traverse` compiles the expressions in the order of the template.
Every child may be absent.
-/

namespace PageTemplate

inductive Part (ε : Type) where
  | literal (s : Bytes)
  | expr (e : ε)
  deriving Inhabited

/-- What a node is given to work with. -/
inductive Operand (ε : Type) where
  | literal (s : Bytes)
  | expr (e : ε)
  /-- A text with expressions in it, and its source. -/
  | interpolated (source : Bytes) (parts : List (Part ε))
  /-- Whether the value is the default marker. -/
  | isDefault (e : ε)
  | not (operand : Operand ε)
  | missing
  deriving Inhabited

/-- An attribute whose value is worked out while rendering. -/
structure DynamicAttribute (ε : Type) where
  name : Bytes
  value : Operand ε
  space : Bytes := [Byte.space]
  eq : Bytes := [Byte.equals]
  quote : Bytes := [Byte.doubleQuote]
  /-- The value written in the template, which the default marker brings back. -/
  written : Option Bytes := none
  boolean : Bool := false
  translate : Bool := false
  msgid : Bytes := []
  deriving Inhabited

/-- The binding of the value of an expression to one name, or of its parts to several. -/
structure Assignment (ε : Type) where
  names : List Bytes
  expr : ε
  isGlobal : Bool := false
  deriving Inhabited

inductive Node (ε : Type) where
  | absent
  | sequence (nodes : List (Node ε))
  | text (s : Bytes)
  | interpolation (source : Bytes) (parts : List (Part ε))
  | element (name : Bytes) (start body stop : Node ε)
  | startTag (lead name : Bytes) (attributes : List (Node ε)) (tail : Bytes)
  | attr (a : DynamicAttribute ε)
  | attributeMap (e : ε) (exclude : List Bytes)
  | condition (test : Operand ε) (yes no : Node ε)
  | loop (names : List Bytes) (e : ε) (body : Node ε) (whitespace : Bytes)
  | define (assignments : List (Assignment ε)) (body : Node ε)
  | cache (exprs : List ε) (body : Node ε)
  | content (e : ε) (raw translate : Bool)
  | translate (msgid : Bytes) (body : Node ε)
  /-- A named part of the message around it. -/
  | name (name : Bytes) (body : Node ε)
  | domain (name : Bytes) (body : Node ε)
  | onError (body fallback : Node ε)
  | macroDef (name : Bytes) (body : Node ε)
  | useInternal (name : Bytes) (slots : List (Bytes × Node ε)) (extend : Bool)
  | useExternal (e : ε) (slots : List (Bytes × Node ε)) (extend : Bool)
  | fillSlot (name : Bytes) (body : Node ε)
  | defineSlot (name : Bytes) (body : Node ε)
  | switch (id : Int) (e : ε) (body : Node ε)
  | case (id : Int) (value : Option ε) (body : Node ε)
  | omitted
  | module (filename : Bytes) (body : Node ε)
  deriving Inhabited

/-- An expression of a template, before it is compiled. Two expressions are the same if they have one
number, whatever their sources. -/
structure Expr where
  id : Nat
  source : Bytes
  token : Markup.Token
  deriving Inhabited

/-- A template program with its macros in document order. -/
structure Module where
  filename : Bytes
  source : Bytes
  body : Node Expr
  macros : List (Bytes × Node Expr)
  deriving Inhabited

def Module.node (m : Module) : Node Expr := .module m.filename m.body

def Module.macroNames (m : Module) : List Bytes := m.macros.map (·.1)

namespace Part

variable {ε δ : Type}

def traverse (f : ε → Except Failure δ) : Part ε → Except Failure (Part δ)
  | literal s => .ok (.literal s)
  | expr e => return .expr (← f e)

def exprs : Part ε → List ε
  | literal _ => []
  | expr e => [e]

end Part

namespace Operand

variable {ε δ : Type}

def traverse (f : ε → Except Failure δ) : Operand ε → Except Failure (Operand δ)
  | literal s => .ok (.literal s)
  | expr e => return .expr (← f e)
  | interpolated s parts => return .interpolated s (← parts.mapM (Part.traverse f))
  | isDefault e => return .isDefault (← f e)
  | not o => return .not (← o.traverse f)
  | missing => .error (.plain (utf8 "unsupported value <nil>"))

def exprs : Operand ε → List ε
  | literal _ | missing => []
  | expr e | isDefault e => [e]
  | interpolated _ parts => parts.flatMap Part.exprs
  | not o => o.exprs

end Operand

namespace Node

variable {ε δ : Type}

mutual

/-- The node with its expressions compiled, in order. -/
def traverse (f : ε → Except Failure δ) : Node ε → Except Failure (Node δ)
  | absent => .ok .absent
  | sequence nodes => return .sequence (← traverseAll f nodes)
  | text s => .ok (.text s)
  | interpolation s parts => return .interpolation s (← parts.mapM (Part.traverse f))
  | element n start body stop =>
    return .element n (← start.traverse f) (← body.traverse f) (← stop.traverse f)
  | startTag lead n attributes tail => return .startTag lead n (← traverseAll f attributes) tail
  | attr a => return .attr { a with value := ← a.value.traverse f }
  | attributeMap e exclude => return .attributeMap (← f e) exclude
  | condition test yes no => return .condition (← test.traverse f) (← yes.traverse f) (← no.traverse f)
  | loop names e body whitespace => return .loop names (← f e) (← body.traverse f) whitespace
  | define assignments body =>
    return .define (← assignments.mapM fun a => return { a with expr := ← f a.expr }) (← body.traverse f)
  | cache exprs body => return .cache (← exprs.mapM f) (← body.traverse f)
  | content e raw translated => return .content (← f e) raw translated
  | translate msgid body => return .translate msgid (← body.traverse f)
  | name n body => return .name n (← body.traverse f)
  | domain n body => return .domain n (← body.traverse f)
  | onError body fallback => return .onError (← body.traverse f) (← fallback.traverse f)
  | macroDef n body => return .macroDef n (← body.traverse f)
  | useInternal n slots extend => return .useInternal n (← traverseSlots f slots) extend
  | useExternal e slots extend => return .useExternal (← f e) (← traverseSlots f slots) extend
  | fillSlot n body => return .fillSlot n (← body.traverse f)
  | defineSlot n body => return .defineSlot n (← body.traverse f)
  | switch id e body => return .switch id (← f e) (← body.traverse f)
  | case id value body => return .case id (← value.mapM f) (← body.traverse f)
  | omitted => .ok .omitted
  | module filename body => return .module filename (← body.traverse f)

def traverseAll (f : ε → Except Failure δ) : List (Node ε) → Except Failure (List (Node δ))
  | [] => .ok []
  | n :: ns => return (← n.traverse f) :: (← traverseAll f ns)

def traverseSlots (f : ε → Except Failure δ) : List (Bytes × Node ε) → Except Failure (List (Bytes × Node δ))
  | [] => .ok []
  | (s, n) :: rest => return (s, ← n.traverse f) :: (← traverseSlots f rest)

end

def isPresent : Node ε → Bool
  | absent => false
  | _ => true

/-- The direct children of a node. Those of sequences and start tags may be absent. -/
def children : Node ε → List (Node ε)
  | sequence nodes => nodes
  | element _ start body stop => [start, body, stop].filter isPresent
  | startTag _ _ attributes _ => attributes
  | condition _ yes no => [yes, no].filter isPresent
  | onError body fallback => [body, fallback].filter isPresent
  | useInternal _ slots _ | useExternal _ slots _ => slots.map fun s => .fillSlot s.1 s.2
  | loop _ _ body _ | define _ body | cache _ body | translate _ body | name _ body | domain _ body
  | macroDef _ body | fillSlot _ body | defineSlot _ body | switch _ _ body | case _ _ body
  | module _ body => [body].filter isPresent
  | _ => []

mutual

/-- A node followed by all nodes below it, depth first. -/
def all : Node ε → List (Node ε)
  | absent => []
  | sequence nodes => sequence nodes :: allOf nodes
  | element n start body stop => element n start body stop :: (start.all ++ body.all ++ stop.all)
  | startTag lead n attributes tail => startTag lead n attributes tail :: allOf attributes
  | condition test yes no => condition test yes no :: (yes.all ++ no.all)
  | loop names e body ws => loop names e body ws :: body.all
  | define as body => define as body :: body.all
  | cache es body => cache es body :: body.all
  | translate m body => translate m body :: body.all
  | name n body => name n body :: body.all
  | domain n body => domain n body :: body.all
  | onError body fallback => onError body fallback :: (body.all ++ fallback.all)
  | macroDef n body => macroDef n body :: body.all
  | useInternal n slots extend => useInternal n slots extend :: allOfSlots slots
  | useExternal e slots extend => useExternal e slots extend :: allOfSlots slots
  | fillSlot n body => fillSlot n body :: body.all
  | defineSlot n body => defineSlot n body :: body.all
  | switch id e body => switch id e body :: body.all
  | case id v body => case id v body :: body.all
  | module f body => module f body :: body.all
  | text s => [text s]
  | interpolation s parts => [interpolation s parts]
  | attr a => [attr a]
  | attributeMap e exclude => [attributeMap e exclude]
  | content e raw t => [content e raw t]
  | omitted => [omitted]

def allOf : List (Node ε) → List (Node ε)
  | [] => []
  | n :: ns => n.all ++ allOf ns

def allOfSlots : List (Bytes × Node ε) → List (Node ε)
  | [] => []
  | (s, n) :: rest => fillSlot s n :: (n.all ++ allOfSlots rest)

end

/-- The expressions that a node itself reads, apart from tests and cached ones. -/
def ownExprs : Node ε → List ε
  | interpolation _ parts => parts.flatMap Part.exprs
  | attr a =>
    match a.value with
    | .expr e => [e]
    | .interpolated _ parts => parts.flatMap Part.exprs
    | _ => []
  | attributeMap e _ | content e _ _ | loop _ e _ _ | switch _ e _ | useExternal e _ _ => [e]
  | define assignments _ => assignments.map (·.expr)
  | case _ (some e) _ => [e]
  | _ => []

/-- The expressions that are evaluated for a node itself, not for the nodes below it. -/
def reads : Node ε → List ε
  | interpolation _ parts => parts.flatMap Part.exprs
  | attr a => a.value.exprs
  | condition test _ _ => test.exprs
  | attributeMap e _ | content e _ _ | loop _ e _ _ | switch _ e _ | useExternal e _ _ => [e]
  | define assignments _ => assignments.map (·.expr)
  | cache exprs _ => exprs
  | case _ e _ => e.toList
  | _ => []

mutual

/-- The fills for the slots of a macro called around the node: those not inside a further call or another
fill. -/
def fills : Node ε → List (Bytes × Node ε)
  | fillSlot n body => [(n, body)]
  | sequence nodes => fillsOf nodes
  | element _ start body stop => start.fills ++ body.fills ++ stop.fills
  | startTag _ _ attributes _ => fillsOf attributes
  | condition _ yes no => yes.fills ++ no.fills
  | onError body fallback => body.fills ++ fallback.fills
  | loop _ _ body _ | define _ body | cache _ body | translate _ body | name _ body | domain _ body
  | macroDef _ body | defineSlot _ body | switch _ _ body | case _ _ body | module _ body => body.fills
  | _ => []

def fillsOf : List (Node ε) → List (Bytes × Node ε)
  | [] => []
  | n :: ns => n.fills ++ fillsOf ns

end

end Node

end PageTemplate
