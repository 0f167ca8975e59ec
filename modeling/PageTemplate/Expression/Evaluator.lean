import PageTemplate.Expression.Plan
import PageTemplate.Heap

/-!
Compiled expressions. An evaluator is what the source of an expression of some type has been turned into; what it
evaluates to is defined elsewhere.
-/

namespace PageTemplate

inductive Evaluator where
  | term (source : Bytes) (names : List Bytes) (plan : Expression.Plan)
  /-- A variable and the segments to follow from it. -/
  | path (head : Bytes) (segments : List Bytes)
  /-- The texts of the parts, joined. -/
  | concat (parts : List Evaluator)
  | constant (v : Value)
  | failing (f : Failure)
  /-- Whether the value is not true. -/
  | negated (e : Evaluator)
  /-- Whether there is a value. -/
  | present (e : Evaluator)
  | asMarkup (e : Evaluator)
  | load (template : Nat) (name : Bytes)
  /-- The value of the first alternative that has one. -/
  | alternatives (es : List Evaluator)
  /-- Any other evaluator: it goes by the variables and by what values stand for, and by a number that the host keeps,
  which it may change. -/
  | host (eval : Assoc Value → Heap → Except Failure Value × Nat)
  deriving Inhabited

end PageTemplate
