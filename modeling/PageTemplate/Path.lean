import PageTemplate.Bytes

/-!
Slash-separated paths. A path is cleaned by taking away empty parts, dots, and every `..` together with
the part before it.
-/

namespace PageTemplate.Path

def up : Bytes := utf8 ".."

def here : Bytes := utf8 "."

def step (rooted : Bool) (kept : List Bytes) (part : Bytes) : List Bytes :=
  if part.isEmpty || part = here then kept
  else if part = up then
    match kept with
    | [] => if rooted then [] else [up]
    | p :: ps => if p = up then up :: p :: ps else ps
  else part :: kept

def clean (path : Bytes) : Bytes :=
  let rooted := path.head? = some Byte.slash
  let parts := ((Bytes.splitAt Byte.slash path).foldl (step rooted) []).reverse
  let joined := Bytes.join [Byte.slash] parts
  if rooted then Byte.slash :: joined else if joined.isEmpty then here else joined

def directory (path : Bytes) : Bytes := clean ((path.reverse.dropWhile (· ≠ Byte.slash)).reverse)

def base (path : Bytes) : Bytes :=
  if path.isEmpty then here
  else
    let trimmed := path.reverse.dropWhile (· = Byte.slash)
    if trimmed.isEmpty then [Byte.slash] else (trimmed.takeWhile (· ≠ Byte.slash)).reverse

def join (a b : Bytes) : Bytes :=
  if a.isEmpty && b.isEmpty then []
  else if a.isEmpty then clean b
  else if b.isEmpty then clean a
  else clean (a ++ Byte.slash :: b)

/-- A path as seen from the root, where it starts in a directory unless it is rooted itself. -/
def absolute (home path : Bytes) : Bytes :=
  if path.head? = some Byte.slash then clean path else join home path

end PageTemplate.Path
