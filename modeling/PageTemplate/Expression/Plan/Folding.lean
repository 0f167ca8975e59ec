import PageTemplate.Expression.Operation
import PageTemplate.Expression.Plan

/-!
Plans with their constant parts worked out in advance: arithmetic and equality of literals, and truth values that decide
a conjunction or disjunction, whose other operand is then neither evaluated nor checked. A filter of a filter becomes
one filter. Zeros among the literals of a plan are one constant, which has the sign of the first.
-/

namespace PageTemplate.Expression

namespace Plan

def foldedValue? (op : BinaryOp) (a b : Literal) : Option Literal :=
  match op with
  | .add | .sub | .mul | .div | .mod | .pow => (op.apply a.toValue b.toValue).toOption.bind Literal.ofValue?
  | .eq =>
    match a, b with
    | .int _ m, .int _ n => some (.bool (m == n))
    | .text s, .text t => some (.bool (s == t))
    | .bool p, .bool q => some (.bool (p == q))
    | _, _ => none
  | _ => none

/-- A conjunction or disjunction in which `decisive` settles the result and the other truth value leaves it to
the other operand. -/
def foldLogic (op : BinaryOp) (operands : Operands) (decisive : Bool) (l r : Plan) : Plan :=
  match l, r with
  | constant (.bool a), r => if a == decisive then bool decisive else r.bare
  | l, constant (.bool b) => if b == decisive then bool decisive else l.bare
  | l, r => binary op operands l r

def foldBinary (op : BinaryOp) (operands : Operands) (l r : Plan) : Plan :=
  match op, l, r with
  | .and, l, r => foldLogic .and operands false l r
  | .or, l, r => foldLogic .or operands true l r
  | op, constant a, constant b =>
    match foldedValue? op a b with
    | some c => constant c
    | none => binary op operands l r
  | op, l, r => binary op operands l r

def foldUnary (op : UnaryOp) (p : Plan) : Plan :=
  match op, p with
  | .not, constant (.bool b) => bool !b
  | .negate, constant (.int t n) => constant (.int t (wrap (-n)))
  | .negate, constant (.double f) => constant (.double (-f))
  | .plus, constant (.int t n) => constant (.int t n)
  | .plus, constant (.double f) => constant (.double f)
  | op, p => unary op p

def literal? : Plan → Option Literal
  | constant .nil => none
  | constant c => some c
  | _ => none

def foldPart : Plan → Plan
  | deref (constant c) => constant c
  | unary op p => foldUnary op p
  | binary op operands l r => foldBinary op operands l r
  | list items =>
    match items, items.mapM literal? with
    | _ :: _, some cs => constant (.list cs)
    | items, _ => list items
  | loop .filter source test none =>
    match source.bare with
    | loop .filter inner first none => loop .filter inner (conditional first test (bool false)) none
    | _ => loop .filter source test none
  | p => p

def folded (p : Plan) : Plan := p.everywhere foldPart

/-- Plans in which zeros are one constant: the first zero that was met, if any. -/
abbrev Zeros := StateM (Option Float)

def sharedZero (c : Literal) : Zeros Literal := do
  match c with
  | .double f =>
    if !Decimal.isZero f then return c
    else
      match ← get with
      | some zero => return .double zero
      | none =>
        set (some f)
        return c
  | c => return c

mutual

def shareZeros : Plan → Zeros Plan
  | constant c => return constant (← sharedZero c)
  | list items => return list (← shareZerosIn items)
  | dict pairs => return dict (← shareZerosInPairs pairs)
  | deref p => return deref (← p.shareZeros)
  | unary op p => return unary op (← p.shareZeros)
  | binary op operands l r => do
    let l ← l.shareZeros
    return binary op operands l (← r.shareZeros)
  | fetch args => return fetch (← shareZerosIn args)
  | member base key optional => do
    let base ← base.shareZeros
    return member base (← key.shareZeros) optional
  | chain p asIs => return chain (← p.shareZeros) asIs
  | slice base lo hi => do
    let base ← base.shareZeros
    let hi ← shareZerosInOption hi
    return slice base (← shareZerosInOption lo) hi
  | call callee args => do
    let args ← shareZerosIn args
    return call (← callee.shareZeros) args
  | apply b args => return apply b (← shareZerosIn args)
  | loop pass source body f => do
    let source ← source.shareZeros
    let body ← body.shareZeros
    return loop pass source body (← shareZerosInOption f)
  | conditional test yes no => do
    let test ← test.shareZeros
    let yes ← yes.shareZeros
    return conditional test yes (← no.shareZeros)
  | binding n value body => do
    let value ← value.shareZeros
    return binding n value (← body.shareZeros)
  | sequence ps => return sequence (← shareZerosIn ps)
  | p => return p

def shareZerosIn : List Plan → Zeros (List Plan)
  | [] => return []
  | p :: ps => do
    let p ← p.shareZeros
    return p :: (← shareZerosIn ps)

def shareZerosInPairs : List (Plan × Plan) → Zeros (List (Plan × Plan))
  | [] => return []
  | (k, v) :: ps => do
    let k ← k.shareZeros
    let v ← v.shareZeros
    return (k, v) :: (← shareZerosInPairs ps)

def shareZerosInOption : Option Plan → Zeros (Option Plan)
  | none => return none
  | some p => return some (← p.shareZeros)

end

end Plan

end PageTemplate.Expression
