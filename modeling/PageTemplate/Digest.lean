import PageTemplate.Bytes

/-!
Secure hashes of texts. `sha1` is the hash of a text as forty hexadecimal digits; `digest` hashes several
texts as one, kept apart by a byte that template text does not hold.
-/

namespace PageTemplate.Digest

/-- The chaining state of the hash. -/
structure State where
  a : UInt32 := 0x67452301
  b : UInt32 := 0xEFCDAB89
  c : UInt32 := 0x98BADCFE
  d : UInt32 := 0x10325476
  e : UInt32 := 0xC3D2E1F0
  deriving DecidableEq, Repr, Inhabited

def rotate (x : UInt32) (n : UInt32) : UInt32 := (x <<< n) ||| (x >>> (32 - n))

/-- The words of a text whose length is a multiple of four, most significant byte first. -/
def words : Bytes → List UInt32
  | a :: b :: c :: d :: s =>
    ((a.toUInt32 <<< 24) ||| (b.toUInt32 <<< 16) ||| (c.toUInt32 <<< 8) ||| d.toUInt32) :: words s
  | _ => []

def wordBytes (w : UInt32) : Bytes :=
  [(w >>> 24).toUInt8, (w >>> 16).toUInt8, (w >>> 8).toUInt8, w.toUInt8]

/-- The text followed by a marking bit, zeros, and its length in bits on eight bytes. -/
def pad (s : Bytes) : Bytes :=
  let zeros := (119 - s.length % 64) % 64
  let bits := (8 * s.length).toUInt64
  let mark : Bytes := 0x80 :: List.replicate zeros 0
  s ++ mark ++ wordBytes (bits >>> 32).toUInt32 ++ wordBytes bits.toUInt32

def extend : Nat → List UInt32 → List UInt32
  | 0, ws => ws
  | n + 1, ws =>
    let w := rotate (ws.getD 2 0 ^^^ ws.getD 7 0 ^^^ ws.getD 13 0 ^^^ ws.getD 15 0) 1
    extend n (w :: ws)

def round (st : State) (t : Nat) (w : UInt32) : State :=
  let (f, k) : UInt32 × UInt32 :=
    if t < 20 then ((st.b &&& st.c) ||| ((~~~ st.b) &&& st.d), 0x5A827999)
    else if t < 40 then (st.b ^^^ st.c ^^^ st.d, 0x6ED9EBA1)
    else if t < 60 then ((st.b &&& st.c) ||| (st.b &&& st.d) ||| (st.c &&& st.d), 0x8F1BBCDC)
    else (st.b ^^^ st.c ^^^ st.d, 0xCA62C1D6)
  ⟨rotate st.a 5 + f + st.e + k + w, st.a, rotate st.b 30, st.c, st.d⟩

def rounds : Nat → List UInt32 → State → State
  | _, [], st => st
  | t, w :: ws, st => rounds (t + 1) ws (round st t w)

def block (st : State) (ws : List UInt32) : State :=
  let r := rounds 0 (extend 64 ws.reverse).reverse st
  ⟨st.a + r.a, st.b + r.b, st.c + r.c, st.d + r.d, st.e + r.e⟩

def blocks : Nat → List UInt32 → State → State
  | 0, _, st => st
  | n + 1, ws, st => blocks n (ws.drop 16) (block st (ws.take 16))

end PageTemplate.Digest

namespace PageTemplate

def sha1 (s : Bytes) : Bytes :=
  let ws := Digest.words (Digest.pad s)
  let st := Digest.blocks (ws.length / 16) ws {}
  Bytes.toHex ([st.a, st.b, st.c, st.d, st.e].flatMap Digest.wordBytes)

def digest (parts : List Bytes) : Bytes := sha1 (Bytes.join [Byte.nul] parts)

end PageTemplate
