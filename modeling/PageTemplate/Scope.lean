import PageTemplate.Value

/-!
Variables. Local variables belong to one scope and can be bound for a while and restored. The variables
of the whole render are shared by every scope of it; under a reserved name they also hold the
failures recorded so far, the innermost first.
-/

namespace PageTemplate

abbrev Vars := Assoc Value

namespace Vars

def find (vars : Vars) (name : Bytes) : Except Failure Value :=
  match vars.get? name with
  | some v => .ok v
  | none => .error (.undefined name)

def setDefault (vars : Vars) (name : Bytes) (v : Value) : Vars :=
  if vars.contains name then vars else vars.insert name v

end Vars

/-- A binding made for a while: the variable and what it was before, if anything. -/
structure Restore where
  name : Bytes
  previous : Option Value
  deriving Inhabited

namespace Restore

def undo (r : Restore) (vars : Vars) : Vars := vars.set? r.name r.previous

end Restore

def Vars.bind (vars : Vars) (name : Bytes) (v : Value) : Vars × Restore :=
  (vars.insert name v, ⟨name, vars.get? name⟩)

/-- The variables shared by all scopes of a render. -/
abbrev Remote := Assoc Value

namespace Remote

def errorKey : Bytes := utf8 "__error__"

def settingsKey : Bytes := utf8 "__settings__"

def errors (r : Remote) : List (Site × Option Failure) :=
  match r.get? errorKey with
  | some (.failures fs) => fs
  | _ => []

def record (r : Remote) (site : Site) (cause : Option Failure) : Remote :=
  r.insert errorKey (.failures (r.errors ++ [(site, cause)]))

def truncateErrors (r : Remote) (n : Nat) : Remote :=
  if r.errors.length > n then r.insert errorKey (.failures (r.errors.take n)) else r

/-- The local variables with every shared one, other than the recorded failures, copied in. -/
def mergeInto (r : Remote) (vars : Vars) : Vars := Assoc.insertAll vars (r.filter fun e => e.1 ≠ errorKey)

def settings? (r : Remote) : Option Nat :=
  match r.get? settingsKey with
  | some (.settings id) => some id
  | _ => none

end Remote

end PageTemplate
