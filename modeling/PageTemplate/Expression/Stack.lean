import PageTemplate.Expression.Member

/-!
The stack that plans run on. Each part of a plan leaves one value and takes those of its own parts off. A part that is
given up leaves behind what it has put there, so what is taken off below it can be something else. Lists and maps made
during one run share an allowance.
-/

namespace PageTemplate.Expression

/-- Why the evaluation of a plan stops early. -/
inductive Interrupt where
  /-- An optional member was read off nothing. -/
  | cut
  | mishap (m : Mishap)
  deriving Inhabited

structure Workbench where
  world : World
  /-- The values put down so far, the last one first. -/
  stack : List Value := []
  /-- The number of elements of the lists and maps made so far. -/
  made : Nat := 0

abbrev Eval := ExceptT Interrupt (StateM Workbench)

namespace Eval

def fail {α : Type} (m : Mishap) : Eval α := throw (.mishap m)

def lift {α : Type} : Except Mishap α → Eval α
  | .ok a => return a
  | .error m => fail m

def world : Eval World := return (← get).world

def push (v : Value) : Eval Unit := modify fun b => { b with stack := v :: b.stack }

def top : Eval Value := do
  match (← get).stack with
  | v :: _ => return v
  | [] => fail .missing

/-- The last value, which is taken off. -/
def pop : Eval Value := do
  let b ← get
  match b.stack with
  | v :: vs =>
    set { b with stack := vs }
    return v
  | [] => fail .missing

/-- The last values, which are taken off, in the order in which they were put down. -/
def popMany (n : Nat) : Eval (List Value) := do
  let b ← get
  let taken := b.stack.take n
  if taken.length < n then fail .missing
  else
    set { b with stack := b.stack.drop n }
    return taken.reverse

def replace (f : Value → Except Mishap Value) : Eval Unit := do
  let v ← pop
  push (← lift (f v))

def combine (f : Value → Value → Except Mishap Value) : Eval Unit := do
  let b ← pop
  let a ← pop
  push (← lift (f a b))

def comparing (f : World → Value → Value → Except Mishap Value) : Eval Unit := do
  let b ← pop
  let a ← pop
  modify fun bench => { bench with world := bench.world.noteCompared a b }
  push (← lift (f (← world) a b))

/-- Whether the last value, which stays, is true; it must be a truth value. -/
def holds : Eval Bool := do lift (asBool (← top))

def allowance : Nat := 1000000

def make (n : Nat) : Eval Unit := do
  modify fun b => { b with made := b.made + n }
  if (← get).made ≥ allowance then fail .unclassified

def gather (n : Nat) : Eval Unit := do
  make n
  push (.list (← popMany n))

def acting (act : Act (Except Mishap Value)) : Eval Unit := do
  let r ← modifyGet fun b =>
    let (r, w) := act.run b.world
    (r, { b with world := w })
  push (← lift r)

end Eval

end PageTemplate.Expression
