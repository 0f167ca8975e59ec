import PageTemplate.Output
import PageTemplate.Scope
import PageTemplate.Value.Truth
import PageTemplate.World

/-!
What changes while a template renders. The output, the variables and the recorded failures belong to the state; the
program, its settings and the fills for its slots belong to the frame. A run may fail, which keeps the state reached, or
exceed the granted depth of macro calls.
-/

namespace PageTemplate.Render

/-- What the rendering of one program body remembers. -/
structure Activation where
  /-- The values of expressions that are evaluated once, by the number of the expression. -/
  cache : List (Nat × Value) := []
  /-- The values of the open switches, and whether one of their cases has been rendered. -/
  switches : List (Int × Value × Bool) := []
  /-- How many events there were when each open switch was opened, which tells it from every other one. -/
  openings : List (Int × Nat) := []
  deriving Inhabited

/-- What happens to expressions, messages and switches while a template renders. A switch is named by its opening. -/
inductive Event where
  /-- An expression is evaluated, and this comes of it. -/
  | evaluated (e : Compiled) (r : Except Failure Value)
  /-- A value that was remembered for an expression is used again. -/
  | recalled (e : Compiled) (v : Value)
  /-- A loop over the value of an expression comes to an item. -/
  | delivered (e : Compiled) (item : Value)
  | translated (msgid text : Bytes)
  | opened (opening : Nat) (v : Value)
  /-- A case of a switch comes to its expression. -/
  | weighed (opening : Nat) (e : Compiled)
  /-- The expression of a case of a switch has given a value. -/
  | judged (opening : Nat) (v : Value)
  /-- The body of a case of a switch is rendered. -/
  | chosen (opening : Nat)

/-- Where a node is rendered. -/
structure Frame where
  /-- The number of the program that the node belongs to. -/
  program : Nat
  /-- The number of the settings that are looked at. -/
  settings : Nat
  activation : Nat
  domain : Bytes
  slots : List (Bytes × Node Compiled × Frame)
  deriving Inhabited

/-- What an expression has before it when it is evaluated: where it is evaluated, the variables, what was set for the
whole render by then, newest first, and the world. -/
structure View where
  frame : Frame
  expr : Compiled
  vars : Vars
  assigned : List (Bytes × Value)
  world : World

structure State where
  world : World
  out : Output := {}
  vars : Vars := []
  remote : Remote := []
  /-- The variables that were set for the whole render, newest first. -/
  assigned : List (Bytes × Value) := []
  /-- What has happened to expressions, messages and switches, newest first. -/
  events : List Event := []
  /-- What the expressions that were evaluated had before them, newest first. -/
  views : List View := []
  /-- The texts of the named parts of the message that is open. -/
  named : Option (Assoc Bytes) := none
  /-- The activations of the bodies that are being rendered, outermost first. -/
  activations : List Activation := []
  deriving Inhabited

/-- A computation that renders. There is no result when the calls are nested too deeply. -/
abbrev Run := ExceptT Failure (StateT State Option)

namespace Run

/-- The depth of calls that was granted is exceeded. -/
def exceeded {α : Type} : Run α := ExceptT.mk fun _ => none

/-- What a run comes to, as a value. -/
def attempt {α : Type} (act : Run α) : Run (Except Failure α) := ExceptT.mk do
  let r ← act.run
  return .ok r

/-- The run, after which something is put back, whether it fails or not. -/
def restoring {α : Type} (restore : State → State) (act : Run α) : Run α := do
  let r ← attempt act
  modify restore
  liftExcept r

end Run

def note (event : Event) : Run Unit := modify fun st => { st with events := event :: st.events }

def write (s : Bytes) : Run Unit := modify fun st => { st with out := st.out.append s }

def binding {α : Type} (name : Bytes) (v : Value) (act : Run α) : Run α := do
  let (vars, restore) := (← get).vars.bind name v
  modify fun st => { st with vars }
  Run.restoring (fun st => { st with vars := restore.undo st.vars }) act

/-- Binds several variables while a run lasts. -/
def bindingAll {α : Type} (bindings : List (Bytes × Value)) (act : Run α) : Run α :=
  match bindings with
  | [] => act
  | (name, v) :: rest => binding name v (bindingAll rest act)

/-- Sets a variable here and for the whole render. -/
def setGlobal (name : Bytes) (v : Value) : Run Unit :=
  modify fun st => { st with
    vars := st.vars.insert name v
    remote := st.remote.insert name v
    assigned := (name, v) :: st.assigned }

/-- A value with what it refers to written out. -/
def resolved (v : Value) : Run Value := return (← get).world.heap.resolve v

/-- Whether a value counts as true. -/
def truth (v : Value) : Run Bool := return (← resolved v).truthy

def activation (frame : Frame) : Run Activation := return (← get).activations.getD frame.activation {}

def modifyActivation (frame : Frame) (f : Activation → Activation) (st : State) : State :=
  { st with activations := st.activations.modify frame.activation f }

def setEntry {κ β : Type} [BEq κ] (entries : List (κ × β)) (k : κ) (v : Option β) : List (κ × β) :=
  let rest := entries.filter fun e => !(e.1 == k)
  match v with
  | some b => (k, b) :: rest
  | none => rest

/-- Remembers or forgets the value of an expression. -/
def setCached (frame : Frame) (id : Nat) (v : Option Value) (st : State) : State :=
  modifyActivation frame (fun a => { a with cache := setEntry a.cache id v }) st

/-- Opens, changes or closes a switch. -/
def setSwitch (frame : Frame) (id : Int) (v : Option (Value × Bool)) (st : State) : State :=
  modifyActivation frame (fun a => { a with switches := setEntry a.switches id v }) st

/-- Remembers or forgets the opening of a switch. -/
def setOpening (frame : Frame) (id : Int) (opening : Option Nat) (st : State) : State :=
  modifyActivation frame (fun a => { a with openings := setEntry a.openings id opening }) st

end PageTemplate.Render
