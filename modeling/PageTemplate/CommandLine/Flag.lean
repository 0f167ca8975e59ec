import PageTemplate.Text.Quoted

/-!
Flags on a command line. A flag begins with one dash or two; its value follows after an equals sign or,
unless it is a switch, as the next argument. Flags end at the first argument that is none, or at two
dashes.
-/

namespace PageTemplate

inductive FlagEffect (σ : Type) where
  | text (set : Bytes → σ → σ)
  | switch (set : Bool → σ → σ)

structure Flag (σ : Type) where
  name : Bytes
  /-- What the flag is for. -/
  purpose : Bytes
  effect : FlagEffect σ

inductive FlagFault where
  | malformed (argument : Bytes)
  | unknown (name : Bytes)
  | valueMissing (name : Bytes)
  | notTruth (name value : Bytes)
  | helpWanted
  deriving DecidableEq, Repr, Inhabited

namespace FlagFault

def message : FlagFault → Bytes
  | malformed argument => utf8 "bad flag syntax: " ++ argument
  | unknown name => utf8 "flag provided but not defined: -" ++ name
  | valueMissing name => utf8 "flag needs an argument: -" ++ name
  | notTruth name value =>
    utf8 "invalid boolean value " ++ Text.quote value ++ utf8 " for -" ++ name ++ utf8 ": parse error"
  | helpWanted => utf8 "flag: help requested"

end FlagFault

def truthOf? (word : Bytes) : Option Bool :=
  if ["1", "t", "T", "true", "TRUE", "True"].any fun w => utf8 w = word then some true
  else if ["0", "f", "F", "false", "FALSE", "False"].any fun w => utf8 w = word then some false
  else none

namespace Flag

variable {σ : Type}

/-- The name after the dashes of an argument with the value after its equals sign, or nothing if the argument
is no flag. -/
def split? (argument : Bytes) : Except FlagFault (Option (Bytes × Option Bytes)) :=
  match argument with
  | 45 :: c :: cs =>
    let body := if c = Byte.minus then cs else c :: cs
    if body.isEmpty then .ok none
    else if body.head? = some Byte.minus || body.head? = some Byte.equals then .error (.malformed argument)
    else
      match Bytes.breakAt? Byte.equals body with
      | some (name, value) => .ok (some (name, some value))
      | none => .ok (some (body, none))
  | _ => .ok none

def unknownFault (name : Bytes) : FlagFault :=
  if name = utf8 "h" || name = utf8 "help" then .helpWanted else .unknown name

/-- The options after the flags at the beginning of the arguments, and the arguments after them. -/
def readAll (flags : List (Flag σ)) (options : σ) : List Bytes → Except FlagFault (σ × List Bytes)
  | [] => .ok (options, [])
  | argument :: rest =>
    match split? argument with
    | .error f => .error f
    | .ok none => .ok (options, if argument = utf8 "--" then rest else argument :: rest)
    | .ok (some (name, value)) =>
      match flags.find? (·.name == name) with
      | none => .error (unknownFault name)
      | some flag =>
        match flag.effect, value, rest with
        | .switch set, none, rest => readAll flags (set true options) rest
        | .switch set, some value, rest =>
          match truthOf? value with
          | some b => readAll flags (set b options) rest
          | none => .error (.notTruth name value)
        | .text set, some value, rest => readAll flags (set value options) rest
        | .text set, none, value :: rest => readAll flags (set value options) rest
        | .text _, none, [] => .error (.valueMissing name)

/-- The description of a flag. The purpose of a switch of one letter stands on the same line. -/
def describe (flag : Flag σ) : Bytes :=
  let head := utf8 "  -" ++ flag.name ++
    match flag.effect with
    | .text _ => utf8 " string"
    | .switch _ => []
  head ++ utf8 (if head.length ≤ 4 then "\t" else "\n    \t") ++ flag.purpose ++ [Byte.newline]

def usage (command : Bytes) (flags : List (Flag σ)) : Bytes :=
  utf8 "Usage of " ++ command ++ utf8 ":\n" ++
    (flags.mergeSort fun a b => Bytes.le a.name b.name).flatMap describe

end Flag

end PageTemplate
