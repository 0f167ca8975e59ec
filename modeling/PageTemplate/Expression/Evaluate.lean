import PageTemplate.Expression.Stack
import PageTemplate.Scope

/-!
Evaluation of compiled expressions. A plan runs by recursion on its structure; loops take their bodies as computations.
A plan whose variables are not all bound does not run at all. What goes wrong is put into a class of failures that let
another alternative be tried, or into none.
-/

namespace PageTemplate.Expression

/-- What a plan runs in. -/
structure Env where
  vars : Vars
  /-- The names bound in the plan itself. -/
  bound : Vars := []
  /-- The element that the innermost loop is at, if it can be told. -/
  element : Option Value := none
  deriving Inhabited

/-- A part of a plan that runs when it is needed. -/
abbrev Action := Env → Eval Unit

def environmentName : Bytes := utf8 "$env"

def Env.find (env : Env) (name : Bytes) : Value :=
  match env.bound.get? name with
  | some v => v
  | none => if name = environmentName then .dict env.vars else (env.vars.get? name).getD .nil

/-! Operations. -/

def isElement (needle : Value) : Value → Except Mishap Value
  | .nil => .ok (.bool false)
  | .list vs | .slice _ vs | .array vs | .absent (.slice _ vs) => .ok (.bool (vs.any fun v => equal v needle))
  | .bytes s => .ok (.bool ((byteValues s).any fun v => equal v needle))
  | _ => .error .unclassified

/-- Whether a value is an element, a key or the name of a field of another. -/
def isMember (w : World) (needle whole : Value) : Except Mishap Value :=
  match entriesOf? w whole, fieldsOf? w whole with
  | some (key, _, entries), _ =>
    match toKey? key needle with
    | some k => .ok (.bool (Value.entry? entries k).isSome)
    | none => .error .unclassified
  | none, some fields =>
    match needle with
    | .text name | .markup name => .ok (.bool (fields.any fun f => f.1.exported && f.1.name == name))
    | _ => .error .mismatch
  | none, none => isElement needle whole

/-- Whether two values are equal, which must be of the type that is known of them. -/
def equalAs (operands : Operands) (a b : Value) : Except Mishap Bool :=
  match operands, a, b with
  | .mixed, a, b => .ok (equal a b)
  | .ints, .int .int m, .int .int n => .ok (m == n)
  | .texts, .text s, .text t => .ok (s == t)
  | _, _, _ => .error .mismatch

/-- The operators on the last two values. -/
def applyBinary (op : BinaryOp) (operands : Operands) : Eval Unit :=
  match op with
  | .eq => Eval.comparing fun _ a b => do return .bool (← equalAs operands a b)
  | .ne => Eval.comparing fun _ a b => do return .bool !(← equalAs operands a b)
  | .mem => Eval.comparing isMember
  | .range => do
    let b ← Eval.pop
    let a ← Eval.pop
    let (lo, size) ← Eval.lift (rangeBounds a b)
    Eval.make size
    Eval.push (.slice .int (rangeItems lo size))
  | op => Eval.combine op.apply

def applyUnary : UnaryOp → Eval Unit
  | .not => Eval.replace fun v => do return .bool !(← asBool v)
  | .negate => Eval.replace negate
  | .plus => return ()

def textLength? : Value → Option Nat
  | .text s | .markup s => some (Text.length s)
  | _ => none

/-- The length of a value: the number of its characters, elements or entries. -/
def lengthOf (w : World) (v : Value) : Except Mishap Value :=
  match textLength? v, entriesOf? w v, elementsOf? v with
  | some n, _, _ => .ok (.ofInt n)
  | none, some (_, _, entries), _ => .ok (.ofInt entries.length)
  | none, none, some vs => .ok (.ofInt vs.length)
  | none, none, none => .error .unusable

def asText : Value → Except Mishap Bytes
  | .text s => .ok s
  | _ => .error .mismatch

def joinTexts (v : Value) (sep : Bytes) : Except Mishap Value :=
  match v with
  | .list vs | .slice .text vs | .absent (.slice .text vs) => do
    return .text (Bytes.join sep (← vs.mapM asText))
  | _ => .error .unusable

/-- The pieces of a text between separators, at most as many as a limit says. With a limit of zero there is not even
an empty list. -/
def splitPieces (v sep limit : Value) : Except Mishap Value := do
  let s ← asText v
  let sep ← asText sep
  match toIndex? limit with
  | some n =>
    return if n = 0 then .absent (.texts []) else .texts (splitText s sep (if n < 0 then none else some n.toNat))
  | none => throw .mismatch

def applyFunction (w : World) (b : Builtin) (args : List Value) : Except Mishap Value :=
  match b, args with
  | .len, [v] => lengthOf w v
  | .upper, [v] => do return .text (Text.upper (← asText v))
  | .lower, [v] => do return .text (Text.lower (← asText v))
  | .trim, [v] => do return .text (Text.trim (← asText v))
  | .trim, [v, set] => do return .text (trimSet (← asText v) (← asText set))
  | .split, [v, sep] => do return .texts (splitText (← asText v) (← asText sep) none)
  | .split, [v, sep, limit] => splitPieces v sep limit
  | .join, [v, sep] => do joinTexts v (← asText sep)
  | .join, v :: _ => joinTexts v []
  | .join, [] => .error .missing
  | .first, v :: _ => .ok ((fetch w true v (.ofInt 0)).toOption.getD .nil)
  | .last, v :: _ => .ok ((fetch w true v (.ofInt (-1))).toOption.getD .nil)
  | .first, [] | .last, [] => .ok .nil
  | _, _ => .error .unclassified

/-- How many values a function takes off the stack when it has been given `n`. -/
def Builtin.taken (b : Builtin) (n : Nat) : Nat :=
  match b with
  | .len | .upper | .lower => 1
  | _ => n

def runFunction (b : Builtin) (n : Nat) : Eval Unit := do
  let vs ← Eval.popMany (b.taken n)
  Eval.push (← Eval.lift (applyFunction (← Eval.world) b vs))

/-- The map of the last keys and values. Of equal keys the first one counts. -/
def gatherPairs (n : Nat) : Eval Unit := do
  Eval.make n
  let vs ← Eval.popMany (2 * n)
  Eval.push (.dict (Assoc.ofEntries (← Eval.lift (entries vs)).reverse))
where
  entries : List Value → Except Mishap (Assoc Value)
    | k :: v :: rest => do
      let es ← entries rest
      return (← asText k, v) :: es
    | _ => .ok []

def sliceBetween (base lo hi : Value) : Except Mishap Value := do
  let _ ← sliceValue base 0 0
  match toIndex? lo, toIndex? hi with
  | some lo, some hi => sliceValue base lo hi
  | _, _ => throw .mismatch

/-- The elements that a loop runs over. Maps and channels have a number of elements, but none that can be told. -/
def loopElements (w : World) (v : Value) : Except Mishap (List (Option Value)) :=
  match elementsOf? v, entriesOf? w v, v with
  | some vs, _, _ => .ok (vs.map some)
  | none, some (_, _, entries), _ => .ok (entries.map fun _ => none)
  | none, none, .channel id => .ok ((w.heap.channels.getD id []).map fun _ => none)
  | none, none, .sink => .ok []
  | none, none, _ => .error .unclassified

def pushElement (env : Env) : Eval Unit :=
  match env.element with
  | some v => Eval.push v
  | none => Eval.fail .unclassified

def passes (test : Action) (env : Env) : Eval Bool := do
  test env
  let b ← Eval.holds
  let _ ← Eval.pop
  return b

/-- Runs what is to be done for each element that passes a test, and counts them. -/
def forPassing (test act : Action) (env : Env) : List (Option Value) → Nat → Eval Nat
  | [], n => return n
  | v :: vs, n => do
    let env := { env with element := v }
    if ← passes test env then
      act env
      forPassing test act env vs (n + 1)
    else forPassing test act env vs n

def forAll (act : Action) (env : Env) : List (Option Value) → Eval Unit
  | [] => return ()
  | v :: vs => do
    act { env with element := v }
    forAll act env vs

/-- Runs what is to be done for the first element that passes a test, if there is one. -/
def forFirst (test act : Action) (env : Env) : List (Option Value) → Eval Bool
  | [] => return false
  | v :: vs => do
    let env := { env with element := v }
    if ← passes test env then
      act env
      return true
    else forFirst test act env vs

/-- Runs a test for each element until it gives the decisive result, which is then left; the other result is left if
no element does. -/
def untilDecided (decisive : Bool) (test : Action) (env : Env) : List (Option Value) → Eval Unit
  | [] => Eval.push (.bool !decisive)
  | v :: vs => do
    test { env with element := v }
    if (← Eval.holds) = decisive then return ()
    else
      let _ ← Eval.pop
      untilDecided decisive test env vs

def loopOver (pass : Pass) (body act : Action) (env : Env) (vs : List (Option Value)) : Eval Unit :=
  match pass with
  | .map => do
    forAll body env vs
    Eval.gather vs.length
  | .filter => do Eval.gather (← forPassing body act env vs 0)
  | .count => do Eval.push (.ofInt (← forPassing body (fun _ => return ()) env vs 0))
  | .all => untilDecided false body env vs
  | .any => untilDecided true body env vs
  | .find required => do found required (← forFirst body act env vs)
  | .findLast required => do found required (← forFirst body act env vs.reverse)
where
  found (required there : Bool) : Eval Unit :=
    if there then return () else if required then Eval.fail .missing else Eval.push .nil

def runLoop (pass : Pass) (body act : Action) (env : Env) : Eval Unit := do
  let v ← Eval.pop
  loopOver pass body act env (← Eval.lift (loopElements (← Eval.world) v))

/-! Plans. -/

def pushMember : List Value → Eval Unit
  | base :: key :: _ => do Eval.push (← Eval.lift (fetch (← Eval.world) false base key))
  | _ => Eval.fail .missing

/-- Any kind of nothing becomes plain nothing, unless it is left as it is. -/
def settle (asIs : Bool) : Eval Unit := do
  if !asIs && isNil (← Eval.top) then
    let _ ← Eval.pop
    Eval.push .nil

def completed (asIs : Bool) (run : Eval Unit) : Eval Unit := fun b =>
  match run.run b with
  | (.error (.mishap m), b) => (.error (.mishap m), b)
  | (_, b) => (settle asIs).run b

namespace Plan

mutual

def run (env : Env) : Plan → Eval Unit
  | constant c => Eval.push c.toValue
  | name n => Eval.push (env.find n)
  | element => pushElement env
  | list items => do
    runAll env items
    Eval.gather items.length
  | dict pairs => do
    runPairs env pairs
    gatherPairs pairs.length
  | deref p => do
    p.run env
    let w ← Eval.world
    Eval.replace fun v => .ok (pointee w v)
  | unary op p => do
    p.run env
    applyUnary op
  | binary .or _ l r => do
    l.run env
    unless ← Eval.holds do
      let _ ← Eval.pop
      r.run env
  | binary .and _ l r => do
    l.run env
    if ← Eval.holds then
      let _ ← Eval.pop
      r.run env
  | binary .coalesce _ l r => do
    l.run env
    if isNil (← Eval.top) then
      let _ ← Eval.pop
      r.run env
  | binary op operands l r => do
    l.run env
    r.run env
    applyBinary op operands
  | fetch args => do
    runAll env args
    pushMember (← Eval.popMany args.length)
  | member base key optional => do
    base.run env
    if optional && isNil (← Eval.top) then throw .cut
    key.run env
    let w ← Eval.world
    Eval.combine (Expression.fetch w true)
  | chain p asIs => completed asIs (p.run env)
  | slice base lo hi => do
    base.run env
    runEnd env hi
    runStart env lo
    let from' ← Eval.pop
    let to' ← Eval.pop
    Eval.replace fun v => sliceBetween v from' to'
  | call callee args => do
    runAll env args
    callee.run env
    let f ← Eval.pop
    let vs ← Eval.popMany args.length
    Eval.acting (callFunction f vs)
  | apply b args => do
    runAll env args
    runFunction b args.length
  | loop pass source body f => do
    source.run env
    runLoop pass (fun env => body.run env) (actionOf f) env
  | conditional test yes no => do
    test.run env
    let b ← Eval.holds
    let _ ← Eval.pop
    if b then yes.run env else no.run env
  | binding n value body => do
    value.run env
    let v ← Eval.pop
    body.run { env with bound := env.bound.insert n v }
  | sequence ps => runSequence env ps

def runAll (env : Env) : List Plan → Eval Unit
  | [] => return ()
  | p :: ps => do
    p.run env
    runAll env ps

def runPairs (env : Env) : List (Plan × Plan) → Eval Unit
  | [] => return ()
  | (k, v) :: ps => do
    k.run env
    v.run env
    runPairs env ps

/-- The end of a slice, which is the length of what is sliced if it is missing. -/
def runEnd (env : Env) : Option Plan → Eval Unit
  | some p => p.run env
  | none => do
    match sliceLength? (← Eval.top) with
    | some n => Eval.push (.ofInt n)
    | none => Eval.fail .unusable

def runStart (env : Env) : Option Plan → Eval Unit
  | some p => p.run env
  | none => Eval.push (.ofInt 0)

/-- What a loop does with an element that passes: a function is applied to it if there is one. -/
def actionOf : Option Plan → Action
  | none => pushElement
  | some f => fun env => f.run env

/-- Runs plans of which only the last one leaves its value. -/
def runSequence (env : Env) : List Plan → Eval Unit
  | [] => return ()
  | [p] => p.run env
  | p :: q :: ps => do
    p.run env
    let _ ← Eval.pop
    runSequence env (q :: ps)

end

def value (p : Plan) (vars : Vars) (w : World) : Except Mishap Value × World :=
  match (p.run { vars }).run { world := w } with
  | (.error (.mishap m), b) => (.error m, b.world)
  | (_, b) => (.ok (b.stack.headD .nil), b.world)

end Plan

def lookupPhrases : List Bytes :=
  [utf8 "cannot fetch", utf8 "cannot get", utf8 "index out of range", utf8 "out of bounds", utf8 "no such key"]

def typePhrases : List Bytes :=
  [utf8 "invalid operation", utf8 "mismatched types", utf8 "cannot use", utf8 "interface conversion",
    utf8 "not callable", utf8 "cannot call", utf8 "invalid memory address", utf8 "cannot convert"]

def valuePhrases : List Bytes :=
  [utf8 "divide by zero", utf8 "invalid argument", utf8 "invalid syntax", utf8 "value out of range"]

/-- The first failure of a class in the chain of a failure, the classes in their order. -/
def innermost? (f : Failure) : Option Failure :=
  let find (p : Failure → Bool) : Option Failure := f.chain.find? p
  (find fun | .undefined _ => true | _ => false).orElse fun _ =>
  (find fun | .lookup _ _ => true | _ => false).orElse fun _ =>
  (find fun | .type _ => true | _ => false).orElse fun _ =>
  find fun | .value _ => true | _ => false

def Mishap.failure (source : Bytes) (m : Mishap) : Failure :=
  let (known, said) : Option Failure × Bytes :=
    match m with
    | .raised f => (innermost? f, f.message)
    | .naming v => (none, v.display)
    | _ => (none, [])
  let source := source.map fun b => if b = Byte.tab then Byte.space else b
  let tells (phrases : List Bytes) : Bool :=
    phrases.any fun p => Bytes.hasInfix p said || Bytes.hasInfix p source
  match known, m with
  | some f, _ => f
  | none, .missing => .lookup [] unspecifiedWording
  | none, m =>
    if tells lookupPhrases then .lookup [] unspecifiedWording
    else
      match m with
      | .mismatch => .type unspecifiedWording
      | m =>
        if tells typePhrases then .type unspecifiedWording
        else
          match m with
          | .unusable => .value unspecifiedWording
          | .raised f =>
            if tells valuePhrases then .value unspecifiedWording
            else .wrapped (utf8 "expression failed") (.expression (some f))
          | _ =>
            if tells valuePhrases then .value unspecifiedWording
            else .wrapped (utf8 "expression failed") (.expression none)

end PageTemplate.Expression

namespace PageTemplate.Evaluator

open Expression

abbrev Evaluation := ExceptT Failure (StateM World)

def evalPlan (vars : Vars) (source : Bytes) (names : List Bytes) (p : Plan) : Evaluation Value := fun w =>
  match names.find? fun n => !vars.contains n with
  | some n => (.error (.undefined n), w)
  | none =>
    match p.value vars w with
    | (.ok v, w) => (.ok v, w)
    | (.error m, w) => (.error (m.failure source), w)

/-- What path segments lead to from a value. -/
def follow (v : Value) : List Bytes → Evaluation Value
  | [] => return v
  | s :: ss => do
    let r ← liftM (traverse v s)
    match r with
    | .ok v => follow v ss
    | .error f => throw f

def resolved (v : Value) : Evaluation Value := return (← get).heap.resolve v

/-- What is made of a value, or another value. The failure of the first lets the other be tried only if something was
missing or unfit. -/
def fallback (x : Evaluation Value) (found : Value → Value) (other : Evaluation Value) : Evaluation Value := fun w =>
  match x.run w with
  | (.ok v, w) => (.ok (found v), w)
  | (.error f, w) => if f.fallsThrough then other.run w else (.error f, w)

mutual

def eval (vars : Vars) : Evaluator → Evaluation Value
  | term source names p => evalPlan vars source names p
  | path head segments => do follow (← liftExcept (vars.find head)) segments
  | concat parts => return .text (← evalTexts vars parts)
  | constant v => return v
  | failing f => throw f
  | negated e => do return .bool !(← resolved (← e.eval vars)).truthy
  | present e => fallback (e.eval vars) (fun _ => .bool true) (return .bool false)
  | asMarkup e => do return (← resolved (← e.eval vars)).asStructure
  | load template name => fun w => World.programValue (w.loadProgram template name)
  | alternatives es => evalFirst vars es
  | host eval => fun w =>
    let answer := eval vars w.heap
    (answer.1, { w with heap := w.heap.withCalls answer.2 })

def evalTexts (vars : Vars) : List Evaluator → Evaluation Bytes
  | [] => return []
  | e :: es => do
    let v ← resolved (← e.eval vars)
    return v.toText ++ (← evalTexts vars es)

def evalFirst (vars : Vars) : List Evaluator → Evaluation Value
  | [] => return .nil
  | [e] => e.eval vars
  | e :: es => fallback (e.eval vars) id (evalFirst vars es)

end

end PageTemplate.Evaluator
