import PageTemplate.Expression.Term
import PageTemplate.Value

/-!
Plans of evaluation. A plan is a term of which it is settled how each part is worked out: where pointers are followed,
which members may be missing, which comparisons hold for one type only, and what a loop does with its elements. Each
part leaves one value on a stack.
-/

namespace PageTemplate.Expression

/-- What is known of the operands of an operation; for a test of membership, of the first one. -/
inductive Operands where
  | mixed
  | ints
  | texts
  deriving DecidableEq, Repr, Inhabited

/-- What a loop over the elements of a list is for. -/
inductive Pass where
  /-- What the body gives for each element. -/
  | map
  /-- The elements that pass a test. -/
  | filter
  | all
  | any
  | count
  /-- The first element that passes a test; whether there must be one. -/
  | find (required : Bool)
  /-- The last element that passes a test; whether there must be one. -/
  | findLast (required : Bool)
  deriving DecidableEq, Repr, Inhabited

/-- The value of a literal, which refers to no object and is known before anything runs. -/
inductive Literal where
  | nil
  | bool (b : Bool)
  | int (type : IntType) (n : Int)
  | double (f : Float)
  | text (s : Bytes)
  | list (items : List Literal)
  | keys (type : KeyType) (ks : List MapKey)
  deriving Inhabited

namespace Literal

mutual

def toValue : Literal → Value
  | nil => .nil
  | bool b => .bool b
  | int t n => .int t n
  | double f => .double f
  | text s => .text s
  | list items => .list (toValues items)
  | keys t ks => .map t .any (ks.map (·, .nil))

def toValues : List Literal → List Value
  | [] => []
  | c :: cs => c.toValue :: toValues cs

end

def ofValue? : Value → Option Literal
  | .bool b => some (.bool b)
  | .int t n => some (.int t n)
  | .double f => some (.double f)
  | .text s => some (.text s)
  | _ => none

end Literal

inductive Plan where
  | constant (c : Literal)
  | name (n : Bytes)
  /-- The element that the innermost loop is at. -/
  | element
  | list (items : List Plan)
  | dict (pairs : List (Plan × Plan))
  /-- The value that a pointer leads to. -/
  | deref (p : Plan)
  | unary (op : UnaryOp) (p : Plan)
  | binary (op : BinaryOp) (operands : Operands) (l r : Plan)
  /-- The member of the first argument under the second, which must be there. -/
  | fetch (args : List Plan)
  /-- A member of which a missing entry gives nothing; read off nothing, an optional one ends the chain. -/
  | member (base key : Plan) (optional : Bool)
  /-- A part that is given up as a whole. Unless it is left as it is, any kind of nothing gives plain nothing. -/
  | chain (p : Plan) (asIs : Bool)
  | slice (base : Plan) (lo hi : Option Plan)
  | call (callee : Plan) (args : List Plan)
  /-- A function of the language on values. -/
  | apply (b : Builtin) (args : List Plan)
  | loop (pass : Pass) (source body : Plan) (f : Option Plan)
  | conditional (test yes no : Plan)
  | binding (name : Bytes) (value body : Plan)
  | sequence (ps : List Plan)
  deriving Inhabited

namespace Plan

def int (n : Int) : Plan := constant (.int .int n)

def bool (b : Bool) : Plan := constant (.bool b)

def bare : Plan → Plan
  | deref p => p
  | p => p

mutual

/-- The plan with a rule applied to its parts, innermost first, and then to what it has become. The functions
that loops apply to passing elements stay as they are. -/
def everywhere (rule : Plan → Plan) : Plan → Plan
  | list items => rule (list (everywhereIn rule items))
  | dict pairs => rule (dict (everywhereInPairs rule pairs))
  | deref p => rule (deref (p.everywhere rule))
  | unary op p => rule (unary op (p.everywhere rule))
  | binary op operands l r => rule (binary op operands (l.everywhere rule) (r.everywhere rule))
  | fetch args => rule (fetch (everywhereIn rule args))
  | member base key optional => rule (member (base.everywhere rule) (key.everywhere rule) optional)
  | chain p asIs => rule (chain (p.everywhere rule) asIs)
  | slice base lo hi =>
    rule (slice (base.everywhere rule) (everywhereInOption rule lo) (everywhereInOption rule hi))
  | call callee args => rule (call (callee.everywhere rule) (everywhereIn rule args))
  | apply b args => rule (apply b (everywhereIn rule args))
  | loop pass source body f => rule (loop pass (source.everywhere rule) (body.everywhere rule) f)
  | conditional test yes no =>
    rule (conditional (test.everywhere rule) (yes.everywhere rule) (no.everywhere rule))
  | binding n value body => rule (binding n (value.everywhere rule) (body.everywhere rule))
  | sequence ps => rule (sequence (everywhereIn rule ps))
  | p => rule p

def everywhereIn (rule : Plan → Plan) : List Plan → List Plan
  | [] => []
  | p :: ps => p.everywhere rule :: everywhereIn rule ps

def everywhereInPairs (rule : Plan → Plan) : List (Plan × Plan) → List (Plan × Plan)
  | [] => []
  | (k, v) :: ps => (k.everywhere rule, v.everywhere rule) :: everywhereInPairs rule ps

def everywhereInOption (rule : Plan → Plan) : Option Plan → Option Plan
  | none => none
  | some p => some (p.everywhere rule)

end

end Plan

end PageTemplate.Expression
