import PageTemplate.Expression.Evaluate
import PageTemplate.Render.State

/-!
Expressions, interpolated texts and attributes while a template renders. A failing expression is recorded
with its site, once; a value that is missing or the default marker leaves nothing in a text.
-/

namespace PageTemplate.Render

/-- Fails with the site of an expression, unless the failure is located already. -/
def failAt {α : Type} (e : Compiled) (f : Failure) : Run α := do
  if f.site?.isSome then throw f
  modify fun st => { st with remote := st.remote.record e.site (some f) }
  throw (.located e.site f)

def evaluateFresh (frame : Frame) (e : Compiled) : Run Value := do
  let st ← get
  let (r, world) := (e.evaluator.eval st.vars).run st.world
  set { st with
    world
    events := .evaluated e r :: st.events
    views := ⟨frame, e, st.vars, st.assigned, st.world⟩ :: st.views }
  match r with
  | .ok v => return v
  | .error f => failAt e f

/-- The value that was remembered for an expression. -/
def reuse (e : Compiled) (v : Value) : Run Value := do
  note (.recalled e v)
  return v

/-- The value of an expression, which may have been remembered. -/
def evaluate (frame : Frame) (e : Compiled) : Run Value := do
  match (← activation frame).cache.lookup e.id with
  | some v => reuse e v
  | none => evaluateFresh frame e

/-- Whether nothing is shown for a value. -/
def isBlank : Value → Bool
  | .nil | .default => true
  | _ => false

def writeParts (frame : Frame) : List (Part Compiled) → Run Unit
  | [] => return
  | .literal s :: ps => do
    write s
    writeParts frame ps
  | .expr e :: ps => do
    let v ← evaluate frame e
    if !isBlank v then write (← resolved v).toContent
    writeParts frame ps

def attributeParts (frame : Frame) (quote : Bytes) : List (Part Compiled) → Run Bytes
  | [] => return []
  | .literal s :: ps => return s ++ (← attributeParts frame quote ps)
  | .expr e :: ps => do
    let v ← evaluate frame e
    let s ← if isBlank v then pure [] else pure ((← resolved v).toAttribute quote)
    return s ++ (← attributeParts frame quote ps)

/-- The value of an interpolated attribute. A single expression keeps its value; all else is markup. -/
def interpolated (frame : Frame) (quote : Bytes) (parts : List (Part Compiled)) : Run Value :=
  match parts with
  | [.expr e] => evaluate frame e
  | parts => return .markup (← attributeParts frame quote parts)

def operand (frame : Frame) : Operand Compiled → Run Value
  | .literal s => return .text s
  | .expr e => evaluate frame e
  | .interpolated _ parts => interpolated frame [Byte.doubleQuote] parts
  | .isDefault e => return .bool (← evaluate frame e).isDefault
  | .not o => do return .bool !(← truth (← operand frame o))
  | .missing => return .nil

/-- The language that messages are translated to. -/
def targetLanguage (frame : Frame) : Run Bytes := do
  let st ← get
  match st.vars.get? (utf8 "target_language") with
  | some (.text language) => return language
  | _ => return (st.world.settingsOf frame.settings).language

def translate (frame : Frame) (msgid : Bytes) (mapping : Assoc Bytes) (fallback : Bytes) : Run Bytes := do
  let language ← targetLanguage frame
  modifyGet fun st =>
    let (text, world) := st.world.translate frame.settings { msgid, domain := frame.domain, mapping, language, fallback }
    (text, { st with world, events := .translated msgid text :: st.events })

/-- The translation of the text of a value. Markup stays markup. -/
def translateValue (frame : Frame) (msgid : Bytes) (v : Value) : Run Value := do
  let shown ← resolved v
  let text := shown.toText
  let msgid := if msgid.isEmpty then text else msgid
  if msgid.isEmpty then return v
  else
    let translated ← translate frame msgid [] text
    return if shown.markup?.isSome then .markup translated else .text translated

def booleanAttributes (frame : Frame) : Run Bool := do
  let w := (← get).world
  return (w.settingsOf (w.program frame.program).settings).booleanAttributes

def attributeValue (frame : Frame) (a : DynamicAttribute Compiled) : Run Value :=
  match a.value with
  | .literal s => return .markup s
  | .interpolated _ parts => interpolated frame a.quote parts
  | o => operand frame o

def dropsAttribute : Value → Bool
  | .nil | .bool false => true
  | _ => false

def writeAttribute (frame : Frame) (a : DynamicAttribute Compiled) (v : Value) : Run Unit := do
  let v ← if a.translate then translateValue frame a.msgid v else pure v
  write (a.space ++ a.name ++ a.eq ++ a.quote ++ (← resolved v).toAttribute a.quote ++ a.quote)

def renderAttribute (frame : Frame) (a : DynamicAttribute Compiled) : Run Unit := do
  let v ← attributeValue frame a
  if v.isDefault then
    match a.written with
    | some s => write (a.space ++ a.name ++ a.eq ++ a.quote ++ s ++ a.quote)
    | none => return
  else if dropsAttribute v then return
  else if a.boolean && (← booleanAttributes frame) then
    if ← truth v then writeAttribute frame a (.markup a.name) else return
  else writeAttribute frame a v

def mapEntries (w : World) (v : Value) : Except Failure (Assoc Value) :=
  let mismatch : Except Failure (Assoc Value) :=
    .error (.type (utf8 "attributes must be a mapping, not " ++ v.typeName))
  match v with
  | .nil => .ok []
  | v =>
    match Expression.entriesOf? w v with
    | some (.int, _, _) | none => mismatch
    | some (key, _, entries) =>
      .ok (Assoc.sorted (entries.map fun e => (((Value.ofKey key e.1).toText), e.2)))

/-- Writes the attributes of a map, without those of the excluded names. -/
def writeEntries (exclude : List Bytes) (booleans : Bool) : Assoc Value → Run Unit
  | [] => return
  | (name, v) :: rest => do
    let opening := utf8 " " ++ name ++ utf8 "=\""
    if !(exclude.contains (Text.lower name) || dropsAttribute v) then
      if booleans && Markup.isBooleanAttribute name then
        if ← truth v then write (opening ++ name ++ utf8 "\"")
      else write (opening ++ (← resolved v).toAttribute [Byte.doubleQuote] ++ utf8 "\"")
    writeEntries exclude booleans rest

/-- Writes the attributes that the value of an expression gives. -/
def renderAttributeMap (frame : Frame) (e : Compiled) (exclude : List Bytes) : Run Unit := do
  let v ← evaluate frame e
  match mapEntries (← get).world v with
  | .ok entries => writeEntries exclude (← booleanAttributes frame) entries
  | .error f => failAt e f

end PageTemplate.Render
