import PageTemplate.Failure

/-!
Alternatives separated by pipes. A source is cut at every single pipe outside quotes and brackets; joining
the segments with pipes gives the source back. Since a pipe may also belong to an expression, a
segment that does not compile is joined with the next.
-/

namespace PageTemplate.Expression

def pushByte (c : UInt8) : List Bytes → List Bytes
  | [] => [[c]]
  | seg :: segs => (c :: seg) :: segs

def opensQuote (c : UInt8) : Bool := Byte.isQuote c || c == Byte.backquote

def opensBracket (c : UInt8) : Bool := c == Byte.leftParen || c == Byte.leftBracket || c == Byte.leftBrace

def closesBracket (c : UInt8) : Bool := c == Byte.rightParen || c == Byte.rightBracket || c == Byte.rightBrace

/-- The segments of a text inside the given quote, if any, and the given number of brackets. -/
def segmentsFrom : Option UInt8 → Nat → Bytes → List Bytes
  | _, _, [] => [[]]
  | some q, depth, c :: s =>
    if c = Byte.backslash then
      match s with
      | [] => [[c]]
      | e :: s => pushByte c (pushByte e (segmentsFrom (some q) depth s))
    else pushByte c (segmentsFrom (if c = q then none else some q) depth s)
  | none, depth, c :: s =>
    if opensQuote c then pushByte c (segmentsFrom (some c) depth s)
    else if opensBracket c then pushByte c (segmentsFrom none (depth + 1) s)
    else if closesBracket c then pushByte c (segmentsFrom none (depth - 1) s)
    else if c = Byte.pipe && depth = 0 then
      match s with
      | [] => [] :: segmentsFrom none 0 []
      | d :: s' =>
        if d = Byte.pipe then pushByte c (pushByte d (segmentsFrom none 0 s')) else [] :: segmentsFrom none 0 (d :: s')
    else pushByte c (segmentsFrom none depth s)

def splitPipes (source : Bytes) : List Bytes := segmentsFrom none 0 source

def joinPipes (segments : List Bytes) : Bytes := Bytes.join [Byte.pipe] segments

variable {m : Type → Type} [Monad m] [MonadExceptOf Failure m] {α : Type}

/-- What the fewest segments that compile compile to, beginning with `taken`, and the segments left. When no
number of them compiles, the failure is that of all of them. -/
def compileFewest (compile : Bytes → m α) (taken : Bytes) : List Bytes → m (α × List Bytes)
  | [] => do return (← compile taken, [])
  | seg :: segs =>
    tryCatchThe Failure (do return (← compile taken, seg :: segs)) fun _ =>
      compileFewest compile (taken ++ Byte.pipe :: seg) segs

end PageTemplate.Expression
