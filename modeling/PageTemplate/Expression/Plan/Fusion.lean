import PageTemplate.Expression.Plan.Folding

/-!
Plans with their loops fused. A function applied to the elements that a filter lets through is worked out in one pass,
so that elements behind the last one needed are not looked at. Membership of an integer in a range of literals is two
comparisons. Two tests of all elements of one list joined by `and`, or of any joined by `or`, are made in one pass too.
-/

namespace PageTemplate.Expression

/-! How plans are written, to tell whether two of them look alike. -/

def UnaryOp.symbol : UnaryOp → String
  | not => "not "
  | negate => "-"
  | plus => "+"

def BinaryOp.symbol : BinaryOp → String
  | or => " or "
  | and => " and "
  | eq => " == "
  | ne => " != "
  | lt => " < "
  | gt => " > "
  | le => " <= "
  | ge => " >= "
  | mem => " in "
  | contains => " contains "
  | startsWith => " startsWith "
  | endsWith => " endsWith "
  | range => ".."
  | add => " + "
  | sub => " - "
  | mul => " * "
  | div => " / "
  | mod => " % "
  | pow => " ** "
  | coalesce => " ?? "

def Pass.word : Pass → String
  | map => "map"
  | filter => "filter"
  | all => "all"
  | any => "any"
  | count => "count"
  | find _ => "find"
  | findLast _ => "findLast"

namespace Plan

def enclosed (opening : String) (parts : List Bytes) (closing : String) : Bytes :=
  utf8 opening ++ Bytes.join (utf8 ", ") parts ++ utf8 closing

mutual

/-- A literal inside a written list. Whole floats look like integers there. -/
def writtenItem : Literal → Bytes
  | .bool b => utf8 (if b then "true" else "false")
  | .int _ n => Bytes.ofInt n
  | .double f => (if Decimal.isZero f && Decimal.isNegative f then utf8 "-" else []) ++ Decimal.plain f
  | .text s => Text.quote s
  | .list cs => enclosed "[" (writtenItems cs) "]"
  | c => c.toValue.typeName

def writtenItems : List Literal → List Bytes
  | [] => []
  | c :: cs => writtenItem c :: writtenItems cs

end

def writtenConstant : Literal → Bytes
  | .double f => Decimal.displayDouble f
  | c => writtenItem c

mutual

def written : Plan → Bytes
  | constant c => writtenConstant c
  | name n => n
  | element => utf8 "#"
  | list items => enclosed "[" (writtenAll items) "]"
  | dict pairs => enclosed "\x7b" (writtenPairs pairs) "\x7d"
  | deref p => p.written
  | unary op p => utf8 op.symbol ++ p.written
  | binary op _ l r => utf8 "(" ++ l.written ++ utf8 op.symbol ++ r.written ++ utf8 ")"
  | fetch args => enclosed "[](" (writtenAll args) ")"
  | member base key optional => base.written ++ utf8 (if optional then "?.[" else "[") ++ key.written ++ utf8 "]"
  | chain p _ => p.written
  | slice base lo hi => base.written ++ utf8 "[" ++ writtenOption lo ++ utf8 ":" ++ writtenOption hi ++ utf8 "]"
  | call callee args => callee.written ++ enclosed "(" (writtenAll args) ")"
  | apply b args =>
    ((Builtin.names.find? (·.2 == b)).map (·.1)).getD [] ++ enclosed "(" (writtenAll args) ")"
  | loop pass source body f =>
    utf8 pass.word ++ enclosed "(" [source.written, body.written, writtenOption f] ")"
  | conditional test yes no =>
    utf8 "(" ++ test.written ++ utf8 " ? " ++ yes.written ++ utf8 " : " ++ no.written ++ utf8 ")"
  | binding n value body => utf8 "let " ++ n ++ utf8 " = " ++ value.written ++ utf8 "; " ++ body.written
  | sequence ps => enclosed "(" (writtenAll ps) ")"

def writtenAll : List Plan → List Bytes
  | [] => []
  | p :: ps => p.written :: writtenAll ps

def writtenPairs : List (Plan × Plan) → List Bytes
  | [] => []
  | (k, v) :: ps => (k.written ++ utf8 ": " ++ v.written) :: writtenPairs ps

def writtenOption : Option Plan → Bytes
  | none => []
  | some p => p.written

end

def compareRange : Plan → Plan
  | binary .mem .ints x (binary .range _ (constant (.int t lo)) (constant (.int u hi))) =>
    binary .and .mixed (binary .ge .mixed x (constant (.int t lo))) (binary .le .mixed x (constant (.int u hi)))
  | p => p

def mapFiltered : Plan → Plan
  | loop .map source f none =>
    match source.bare with
    | loop .filter items test none => loop .filter items test (some f)
    | _ => loop .map source f none
  | p => p

def countFiltered : Plan → Plan
  | apply .len [source] =>
    match source.bare with
    | loop .filter items test _ => loop .count items test none
    | _ => apply .len [source]
  | p => p

def endOfFiltered (b : Builtin) (index : Int) (pass : Bool → Pass) : Plan → Plan
  | apply c [source] =>
    match source.bare with
    | loop .filter items test f => if c == b then loop (pass false) items test f else apply c [source]
    | _ => apply c [source]
  | member (loop .filter items test f) (constant (.int t i)) false =>
    if i == index then loop (pass true) items test f
    else member (loop .filter items test f) (constant (.int t i)) false
  | p => p

/-- Whether two loops of this kind joined by the operator can be made in one pass. -/
def joins (op : BinaryOp) (pass : Pass) : Bool := (op == .and && pass == .all) || (op == .or && pass == .any)

/-- Two tests joined by an operator, in one pass if both test the elements of one list. -/
def joined? (op : BinaryOp) (l r : Plan) : Option Plan :=
  match l, r with
  | loop pass items test none, loop pass' items' test' none =>
    if joins op pass && pass == pass' && items.written == items'.written then
      some (loop pass items ((joined? op test test').getD (binary op .mixed (deref test) (deref test'))) none)
    else none
  | _, _ => none

def joinTests : Plan → Plan
  | binary op operands l r => (joined? op l.bare r.bare).getD (binary op operands l r)
  | p => p

def fusions : List (Plan → Plan) :=
  [compareRange, mapFiltered, countFiltered, endOfFiltered .last (-1) .findLast, endOfFiltered .first 0 .find,
    joinTests]

def settled (p : Plan) : Plan :=
  ((fusions.foldl (fun p rule => p.everywhere rule) p.folded).shareZeros.run none).1

end Plan

end PageTemplate.Expression
