import PageTemplate.Failure

/-!
Translation of messages. The host may supply a hook that translates a message; whatever it gives, the
placeholders `${name}` in the result are filled from the texts of the named parts of the message. A
hook that gives nothing or gives up leaves the default text.
-/

namespace PageTemplate

def placeholderStart : Bytes := [Byte.dollar, Byte.leftBrace]

def placeholder (name : Bytes) : Bytes := placeholderStart ++ name ++ [Byte.rightBrace]

def placeholderName? (s : Bytes) : Option (Bytes × Bytes) := Bytes.breakAt? Byte.rightBrace s

theorem length_breakAt? {b : UInt8} {s : Bytes} {r : Bytes × Bytes} (h : Bytes.breakAt? b s = some r) :
    r.2.length < s.length := by
  induction s generalizing r with
  | nil => simp [Bytes.breakAt?] at h
  | cons c cs ih =>
    simp only [Bytes.breakAt?] at h
    split at h
    · simp only [Option.some.injEq] at h
      simp [← h]
    · simp only [Option.map_eq_some_iff] at h
      obtain ⟨p, hp, rfl⟩ := h
      have := ih hp
      simp only [List.length_cons]
      omega

/-- The text with the placeholders of known names filled in; others stay. -/
def fillPlaceholders (mapping : Assoc Bytes) : Bytes → Bytes
  | [] => []
  | c :: s =>
    if c = Byte.dollar && s.head? = some Byte.leftBrace then
      match _h : placeholderName? s.tail with
      | some r => ((mapping.get? r.1).getD (placeholder r.1)) ++ fillPlaceholders mapping r.2
      | none => c :: fillPlaceholders mapping s
    else c :: fillPlaceholders mapping s
termination_by s => s.length
decreasing_by
  · have := length_breakAt? _h
    simp only [List.length_tail] at this
    simp only [List.length_cons]
    omega
  · simp
  · simp

structure Message where
  msgid : Bytes
  domain : Bytes := []
  /-- The texts of the named parts. -/
  mapping : Assoc Bytes := []
  language : Bytes := []
  fallback : Bytes := []
  deriving Inhabited

/-- A translation hook gives the translated text, or gives up with a reason. -/
abbrev Hook := Message → Except Bytes Bytes

def translateMessage (hook : Option Hook) (m : Message) : Bytes × Option Failure :=
  let m := if m.fallback.isEmpty then { m with fallback := m.msgid } else m
  let (text, failed) : Bytes × Option Failure :=
    match hook with
    | none => ([], none)
    | some hook =>
      match hook m with
      | .ok s => (s, none)
      | .error reason => ([], some (.translation m.msgid reason))
  (fillPlaceholders m.mapping (if text.isEmpty then m.fallback else text), failed)

end PageTemplate
