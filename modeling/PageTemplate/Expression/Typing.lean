import PageTemplate.Expression.Nature
import PageTemplate.Expression.Plan

/-!
Checking terms. A term whose parts are known not to fit is refused; any other becomes a plan. An operand of which
nothing is known may be a pointer, which is followed; integers and texts are compared as such if both sides are known to
be; a list of literals that a value is looked up in becomes a set of keys. The arguments of an unknown function are not
checked.
-/

namespace PageTemplate.Expression

/-- What is known while a term is checked. -/
structure Knowledge where
  bound : Assoc Nature := []
  element : Nature := .unknown
  /-- Whether members are read directly, so that the natures of base and key must fit. -/
  direct : Bool := false
  /-- Whether terms are taken as they are, without a check. -/
  trusting : Bool := false
  deriving Inhabited

namespace Knowledge

def name (k : Knowledge) (n : Bytes) : Nature :=
  match k.bound.get? n with
  | some t => t
  | none => if n = memberFunction || reservedFunctions.contains n then .function else .unknown

/-- Whether a name can be bound: it is neither a function of the language nor bound already. -/
def canBind (k : Knowledge) (n : Bytes) : Bool :=
  k.trusting || (n ≠ memberFunction && !reservedFunctions.contains n && !k.bound.contains n)

def judge (k : Knowledge) (n : Option Nature) (p : Plan) : Option (Nature × Plan) :=
  if k.trusting then some (.unknown, p) else n.map (·, p)

end Knowledge

/-- The plan of an operand, whose pointers are followed where nothing is known of it. -/
def operand (p : Nature × Plan) : Plan := if p.1.isUnknown then .deref p.2 else p.2

def Operands.ofNatures (op : BinaryOp) (a b : Nature) : Operands :=
  match op with
  | .eq | .ne => if a == .int && b == .int then .ints else if a == .text && b == .text then .texts else .mixed
  | .mem => if a == .int then .ints else .mixed
  | _ => .mixed

namespace Plan

/-- The set that a list of literals is when a value is looked up in it: of integers if the value is known to
be one, or else of texts. -/
def keySet? (needle : Nature) : Plan → Option Plan
  | list (p :: ps) =>
    let ints := (p :: ps).mapM fun
      | constant (.int .int n) => some (MapKey.int n)
      | _ => none
    let texts := (p :: ps).mapM fun
      | constant (.text s) => some (MapKey.text s)
      | _ => none
    let set (key : KeyType) (ks : List MapKey) : Plan := constant (.keys key ks)
    match (if needle == .int then ints else none), texts with
    | some ks, _ => some (set .int ks)
    | none, some ks => some (set .text ks)
    | none, none => none
  | _ => none

/-- The plan as an alternative to nothing, whose kinds are not told apart. -/
def leftAsIs : Plan → Plan
  | chain p _ => chain p true
  | p => p

def ofOperation (op : BinaryOp) (l r : Nature × Plan) : Plan :=
  match op with
  | .mem => binary op (.ofNatures op l.1 r.1) (operand l) ((keySet? l.1 r.2).getD (operand r))
  | .coalesce => binary op .mixed (operand (l.1, l.2.leftAsIs)) (operand (r.1, r.2.leftAsIs))
  | op => binary op (.ofNatures op l.1 r.1) (operand l) (operand r)

/-- A function of the language on checked arguments. -/
def ofBuiltin (b : Builtin) (args : List (Nature × Plan)) : Plan :=
  match b, args with
  | .map, [source, body] => loop .map (operand source) body.2 none
  | .filter, [source, test] => loop .filter (operand source) test.2 none
  | .all, [source, test] => loop .all (operand source) test.2 none
  | .any, [source, test] => loop .any (operand source) test.2 none
  | .count, [source, test] => loop .count (operand source) test.2 none
  | .count, [source] => loop .count (operand source) element none
  | b, args => apply b (args.map operand)

end Plan

namespace Term

def isText : Term → Bool
  | text _ => true
  | _ => false

def isMemberFunction : Term → Bool
  | name n => n == memberFunction
  | _ => false

mutual

def check (k : Knowledge) : Term → Option (Nature × Plan)
  | nil => k.judge (some .nil) (.constant .nil)
  | bool b => k.judge (some .bool) (.bool b)
  | int n => k.judge (some .int) (.int n)
  | float f => k.judge (some .float) (.constant (.double f))
  | text s => k.judge (some .text) (.constant (.text s))
  | name n => k.judge (some (k.name n)) (.name n)
  | element => k.judge (some k.element) .element
  | list items => do
    let ps ← checkAll k items
    k.judge (some (.ofItems (ps.map (·.1)))) (.list (ps.map (·.2)))
  | dict pairs => do k.judge (some .dict) (.dict (← checkPairs k pairs))
  | unary op t => do
    let p ← t.check k
    k.judge (op.nature? p.1) (.unary op (operand p))
  | binary op l r => do
    let a ← l.check k
    let b ← r.check k
    k.judge (op.nature? a.1 b.1) (.ofOperation op a b)
  | member base key optional called => do
    let b ← base.check k
    let n ← key.check k
    if optional || called || k.direct then
      k.judge (Nature.member? b.1 n.1 key.isText) (.member b.2 n.2 optional)
    else k.judge (some .any) (.fetch [b.2, n.2])
  | chain t => do
    let p ← t.check { k with direct := true }
    some (p.1, .chain p.2 false)
  | slice base lo hi => do
    let b ← base.check k
    let inner := { k with trusting := k.trusting || b.1.isUnknown }
    let plan := Plan.slice b.2 (← checkIndex inner lo) (← checkIndex inner hi)
    if b.1.isUnknown then some (.unknown, plan)
    else k.judge (if b.1.isList || b.1 == .text then some b.1 else none) plan
  | call callee args => do
    let c ← callee.check k
    if callee.isMemberFunction then k.judge (some .any) (.fetch ((← checkAll k args).map (·.2)))
    else
      let ps ← checkAll { k with trusting := true } args
      k.judge (if c.1.isUnknown then some .unknown else none) (.call c.2 (ps.map (·.2)))
  | builtin b [source, last] => do
    let s ← source.check k
    let p ← last.check (if b.isLoop then { k with element := s.1.element } else k)
    k.judge (b.nature? [s.1, p.1]) (.ofBuiltin b [s, p])
  | builtin b args => do
    let ps ← checkAll k args
    k.judge (b.nature? (ps.map (·.1))) (.ofBuiltin b ps)
  | conditional test yes no => do
    let t ← test.check k
    let y ← yes.check k
    let n ← no.check k
    k.judge (if t.1.isUnknown || t.1 == .bool then some (y.1.either n.1) else none) (.conditional t.2 y.2 n.2)
  | binding n value body => do
    let v ← value.check k
    if k.canBind n then
      let b ← body.check { k with bound := (n, v.1) :: k.bound }
      some (b.1, .binding n v.2 b.2)
    else none
  | sequence ts => do
    let ps ← checkAll k ts
    k.judge (ps.getLast?.map (·.1)) (.sequence (ps.map (·.2)))

def checkAll (k : Knowledge) : List Term → Option (List (Nature × Plan))
  | [] => some []
  | t :: ts => do return (← t.check k) :: (← checkAll k ts)

def checkPairs (k : Knowledge) : List (Term × Term) → Option (List (Plan × Plan))
  | [] => some []
  | (key, value) :: ps => do
    let a ← key.check k
    let b ← value.check k
    return (a.2, b.2) :: (← checkPairs k ps)

def checkIndex (k : Knowledge) : Option Term → Option (Option Plan)
  | none => some none
  | some t => do
    let p ← t.check k
    if p.1.isUnknown || p.1 == .int then some (some p.2) else none

end

/-- The integer that a term of literals stands for before evaluation. -/
def constant? : Term → Option Int
  | int n => some n
  | unary .negate t => t.constant?.map fun n => wrap (-n)
  | unary .plus t => t.constant?
  | binary op l r => do
    let a ← l.constant?
    let b ← r.constant?
    match op with
    | .add => some (wrap (a + b))
    | .sub => some (wrap (a - b))
    | .mul => some (wrap (a * b))
    | .mod => if b = 0 then none else some (Int.tmod a b)
    | _ => none
  | _ => none

mutual

/-- Whether a term asks for the remainder of a constant by a constant zero, which is refused before
evaluation. -/
def dividesByZero : Term → Bool
  | list items => anyDividesByZero items
  | dict pairs => anyPairDividesByZero pairs
  | unary _ t => t.dividesByZero
  | binary op l r =>
    (op == .mod && l.constant?.isSome && r.constant? == some 0) || l.dividesByZero || r.dividesByZero
  | member base key _ _ => base.dividesByZero || key.dividesByZero
  | chain t => t.dividesByZero
  | slice base lo hi => base.dividesByZero || optionDividesByZero lo || optionDividesByZero hi
  | call callee args => callee.dividesByZero || anyDividesByZero args
  | builtin _ args => anyDividesByZero args
  | conditional test yes no => test.dividesByZero || yes.dividesByZero || no.dividesByZero
  | binding _ value body => value.dividesByZero || body.dividesByZero
  | sequence ts => anyDividesByZero ts
  | _ => false

def anyDividesByZero : List Term → Bool
  | [] => false
  | t :: ts => t.dividesByZero || anyDividesByZero ts

def anyPairDividesByZero : List (Term × Term) → Bool
  | [] => false
  | (k, v) :: ps => k.dividesByZero || v.dividesByZero || anyPairDividesByZero ps

def optionDividesByZero : Option Term → Bool
  | none => false
  | some t => t.dividesByZero

end

def plan? (t : Term) : Option Plan := if t.dividesByZero then none else (t.check {}).map (·.2)

end Term

end PageTemplate.Expression
