import PageTemplate.Proofs.Assoc
import PageTemplate.Proofs.Render.Effect

/-!
Local bindings. What a definition, a loop or an error handler binds for its body is bound no longer than the body is
rendered, also when it fails, and so is the entry of a loop in the table of running loops. The main statement is that a
node without macro calls and without definitions for the whole render leaves the local variables and the table of loops
as they were.
-/

namespace PageTemplate

namespace Heap

theorem tables_iterate {h h' : Heap} {pairs : Bool} {v : Value} {cursor : Nat}
    (hiterate : h.iterate pairs v = .ok (cursor, h')) : h'.tables = h.tables := by
  fun_induction h.iterate pairs v
  case case10 hdrain =>
    cases hdrain
    cases hiterate
    rfl
  case case12 ih => exact ih hiterate
  case case13 ih => exact ih hiterate
  all_goals cases hiterate
  all_goals rfl

theorem table_of_length_le {h : Heap} {id : Nat} (hle : h.tables.length ≤ id) : h.table id = [] := by
  simp [table, List.getD_eq_getElem?_getD, hle]

theorem table_newTable (h : Heap) (id : Nat) : h.newTable.2.table id = h.table id := by
  by_cases hlt : id < h.tables.length
  · simp only [newTable, table, List.getD_eq_getElem?_getD, List.getElem?_append_left hlt]
  · have hle := Nat.le_of_not_lt hlt
    rw [table_of_length_le hle]
    simp only [newTable, table, List.getD_eq_getElem?_getD, List.getElem?_append_right hle]
    cases id - h.tables.length <;> rfl

@[simp] theorem table_setTableEntry (h : Heap) (id : Nat) (name : Bytes) (loop : Option Nat) (j : Nat) :
    (h.setTableEntry id name loop).table j =
      if j = id ∧ id < h.tables.length then (h.table id).set? name loop else h.table j := by
  simp only [setTableEntry, table, List.getD_eq_getElem?_getD, List.getElem?_modify]
  by_cases hj : j = id
  · subst hj
    by_cases hlt : j < h.tables.length <;> simp [hlt]
  · simp [hj, Ne.symm hj]

theorem truthy_resolve {h h' : Heap} (htable : ∀ id, h'.table id = h.table id) (v : Value) :
    (h'.resolve v).truthy = (h.resolve v).truthy := by
  have hitems : ∀ (h : Heap) (items : List Value), (h.resolveItems items).isEmpty = items.isEmpty := by
    intro h items
    cases items <;> simp [resolveItems]
  have hentries : ∀ (h : Heap) (entries : List (MapKey × Value)), (h.resolveEntries entries).isEmpty = entries.isEmpty := by
    intro h entries
    cases entries <;> simp [resolveEntries]
  cases v with
  | loops id => simp only [resolve, htable]
  | _ => simp [resolve, Value.truthy, hitems, hentries]

end Heap

namespace Render

open Run (Keeps)

structure TablesKept (st st' : State) : Prop where
  length_le : st.world.heap.tables.length ≤ st'.world.heap.tables.length
  table_eq (id : Nat) : st'.world.heap.table id = st.world.heap.table id

namespace TablesKept

theorem of_tables_eq {st st' : State} (h : st'.world.heap.tables = st.world.heap.tables) :
    TablesKept st st' :=
  ⟨Nat.le_of_eq (by rw [h]), fun id => by rw [Heap.table, h, Heap.table]⟩

theorem aloof : Aloof TablesKept where
  trans h h' := ⟨Nat.le_trans h.length_le h'.length_le, fun id => (h'.table_eq id).trans (h.table_eq id)⟩
  world _ _ h := of_tables_eq h.tables
  views _ _ _ _ _ := of_tables_eq rfl
  apart _ _ _ _ _ := of_tables_eq rfl
  failures _ _ := of_tables_eq rfl

theorem isScoped : Scoped TablesKept := aloof.scoped fun _ _ => of_tables_eq rfl

theorem loopTable : Keeps TablesKept loopTable := by
  refine .get_bind fun st r st' h => ?_
  split at h
  · cases h
    exact aloof.refl st
  · cases h
    exact ⟨by simp, fun id => st.world.heap.table_newTable id⟩

theorem of_entry {st st₁ : State} {id loop : Nat} {name : Bytes}
    (h : TablesKept (modifyHeap (fun h => h.setTableEntry id name (some loop)) st) st₁) :
    TablesKept st (modifyHeap
      (fun h => h.setTableEntry id name ((st.world.heap.table id).get? name)) st₁) := by
  have hlength : ∀ (h : Heap) (loop : Option Nat),
      (h.setTableEntry id name loop).tables.length = h.tables.length := by
    simp [Heap.setTableEntry]
  obtain ⟨hle, htable⟩ := h
  simp only [modifyHeap, hlength, Heap.table_setTableEntry] at hle htable
  refine ⟨by simpa only [modifyHeap, hlength] using hle, fun j => ?_⟩
  simp only [modifyHeap, Heap.table_setTableEntry, htable]
  by_cases hj : j = id
  · subst hj
    by_cases hlt : j < st.world.heap.tables.length
    · have hlt₁ := Nat.lt_of_lt_of_le hlt hle
      simp only [hlt, hlt₁, and_self, if_true, Assoc.set?]
      exact Assoc.set?_get?_insert _ name loop
    · -- There was no such table to enter the loop into, and if there is one now, it is empty.
      rw [Heap.table_of_length_le (Nat.le_of_not_lt hlt)]
      simp [hlt, Assoc.set?, Assoc.erase]
  · simp [hj]

theorem renderLoop (frame : Frame) (names : List Bytes) (e : Compiled) (whitespace : Bytes)
    {body : Run Unit} (hbody : Keeps TablesKept body) :
    Keeps TablesKept (renderLoop frame names e whitespace body) := by
  have hR := aloof
  have hadvance : ∀ loop, Keeps TablesKept (advance loop) := by
    intro loop st r st' h
    cases h
    exact of_tables_eq (st.world.heap.tables_advance loop)
  refine hR.bind (hR.evaluate frame trivial) fun source => .get_bind fun st r st' h => ?_
  split at h
  · exact hR.failAt e _ _ _ _ h
  · next cursor heap hiterate =>
    -- The cursor and the loop are new cells; only then is the loop entered into its table.
    have htables := Heap.tables_iterate hiterate
    have hcells : TablesKept st (modifyHeap (fun _ => (heap.newLoop cursor).2) st) :=
      of_tables_eq htables
    rw [Run.run_modify_bind] at h
    rcases Run.run_bind_eq_some h with ⟨table, st₁, htable, hrest⟩ | ⟨f, htable, _⟩
    · rw [Run.run_get_bind, Run.run_modify_bind, Run.run_get_bind] at hrest
      obtain ⟨st₂, hitems, rfl⟩ := Run.run_restoring_eq_some hrest
      have hitems := hR.compositional.iterations (U := []) (fun loop _ => hadvance loop)
        (isScoped.always_pass hbody names) e _ whitespace _ _ _ _ hitems
      exact hR.trans hcells (hR.trans (loopTable _ _ _ htable) (of_entry hitems))
    · exact hR.trans hcells (loopTable _ _ _ htable)

theorem lasting : Lasting TablesKept where
  toScoped := isScoped
  vars _ _ := of_tables_eq rfl
  global _ _ := .modify fun _ => of_tables_eq rfl
  loop := renderLoop

end TablesKept

/-! ### Local variables -/

/-- Every variable is bound as before, that of the loops only if it holds a table: a loop that finds none makes one. -/
structure LocalsKept (st st' : State) : Prop where
  other (name : Bytes) : name ≠ Expression.loopsName → st'.vars.get? name = st.vars.get? name
  loops (id : Nat) : st.vars.get? Expression.loopsName = some (.loops id) →
    st'.vars.get? Expression.loopsName = some (.loops id)

namespace LocalsKept

theorem of_vars_eq {st st' : State} (h : st'.vars = st.vars) : LocalsKept st st' :=
  ⟨fun name _ => by rw [h], fun id hid => by rw [h, hid]⟩

theorem aloof : Aloof LocalsKept where
  trans h h' := ⟨fun name hname => (h'.other name hname).trans (h.other name hname),
    fun id hid => h'.loops id (h.loops id hid)⟩
  world _ _ _ := of_vars_eq rfl
  views _ _ _ _ _ := of_vars_eq rfl
  apart _ _ _ _ _ := of_vars_eq rfl
  failures _ _ := of_vars_eq rfl

/-- A binding is undone, whatever the body did to the variable. -/
theorem binding (name : Bytes) (v : Value) {body : Run Unit} (hbody : Keeps LocalsKept body) :
    Keeps LocalsKept (binding name v body) := by
  refine .get_bind fun st r st' h => ?_
  rw [Run.run_modify_bind] at h
  obtain ⟨st₁, hrun, rfl⟩ := Run.run_restoring_eq_some h
  -- The body starts with the new binding; undoing it sets the name, whatever the body left there.
  have hkept := hbody _ _ _ hrun
  simp only [Vars.bind] at hkept
  constructor
  · intro n hn
    have hother := hkept.other n hn
    simp only [Assoc.get?_insert] at hother
    simp only [Vars.bind, Restore.undo, Assoc.get?_set?]
    split
    · next heq => rw [heq]
    · next hne => rw [hother, if_neg hne]
  · intro id hid
    have hloops := hkept.loops id
    simp only [Assoc.get?_insert] at hloops
    simp only [Vars.bind, Restore.undo, Assoc.get?_set?]
    split
    · next heq => rw [← heq, hid]
    · next hne => exact hloops (by rw [if_neg hne, hid])

theorem isScoped : Scoped LocalsKept := ⟨aloof.toCompatible, binding⟩

theorem loopTable : Keeps LocalsKept loopTable := by
  refine .get_bind fun st r st' h => ?_
  split at h
  · cases h
    exact aloof.refl st
  · next hnone =>
    cases h
    refine ⟨fun name hname => ?_, fun id hid => absurd hid (hnone id)⟩
    simp only [Assoc.get?_insert, if_neg hname]

/-- A fill for a slot leaves no variables behind, whatever it contains. -/
theorem renderFill (call : Continuation) (fill : Node Compiled × Frame) :
    Keeps LocalsKept (renderFill call fill) := by
  refine .get_bind fun st r st' h => ?_
  rw [Run.run_set_bind] at h
  obtain ⟨st₁, _, rfl⟩ := Run.run_restoring_eq_some h
  exact of_vars_eq rfl

end LocalsKept

/-- Neither a macro call nor a definition for the whole render. -/
def IsLocal : Node Compiled → Prop
  | .define assignments _ => ∀ a ∈ assignments, a.isGlobal = false
  | .useInternal _ _ _ | .useExternal _ _ _ => False
  | _ => True

theorem LocalsKept.rendering (call : Continuation) : Closed call (keeping LocalsKept) IsLocal where
  toCaching := isScoped.caching fun frame names _ whitespace _ he hbody =>
    isScoped.renderLoop hbody (fun _ _ => of_vars_eq rfl) loopTable frame names he whitespace
  fill fill _ := renderFill call fill
  global hlocal := fun ⟨a, ha, hglobal⟩ => by simp [hlocal a ha] at hglobal
  internal hlocal := hlocal.elim
  external hlocal := hlocal.elim

/-- A node that binds locally leaves the local variables and the running loops as they were, also if it fails. -/
theorem locals_restored (depth : Nat) (frame : Frame) (n : Node Compiled)
    (hlocal : ∀ m ∈ n.all, IsLocal m) (st st' : State) (r : Except Failure Unit) (table : Nat)
    (htable : st.vars.get? Expression.loopsName = some (.loops table))
    (hrun : (node (toDepth depth) frame n).run st = some (r, st')) :
    (∀ name, st'.vars.get? name = st.vars.get? name) ∧
      st'.world.heap.table table = st.world.heap.table table := by
  have hlocals := (LocalsKept.rendering _).keeps_node n frame hlocal _ _ _ hrun
  have htables := (TablesKept.lasting.rendering (TablesKept.lasting.keeps_toDepth depth)).keeps_node
    n frame (fun _ _ => trivial) _ _ _ hrun
  refine ⟨fun name => ?_, htables.table_eq table⟩
  by_cases hname : name = Expression.loopsName
  · rw [hname, htable, hlocals.loops table htable]
  · exact hlocals.other name hname

theorem locals_restored_failing_loop :
    let x := utf8 "x"
    let e : Compiled := ⟨0, .constant (.list [.ofInt 1, .ofInt 2]), default⟩
    let n : Node Compiled := .define [{ names := [x], expr := e }]
      (.loop [x] e (.loop [x, utf8 "y"] e .omitted []) [])
    let st : State :=
      { world := { heap := { tables := [[(x, 7)]] } }, vars := [(utf8 "repeat", .loops 0), (x, .nil)] }
    (∀ m ∈ n.all, IsLocal m) ∧
      ∃ f st', (node (toDepth 0) default n).run st = some (.error f, st') ∧
        (∀ name, st'.vars.get? name = st.vars.get? name) ∧
        st'.world.heap.table 0 = st.world.heap.table 0 := by
  intro x e n st
  have hlocal : ∀ m ∈ n.all, IsLocal m := by simp [n, Node.all, IsLocal]
  obtain ⟨f, st', hrun⟩ := Run.exists_error_of_any (node (toDepth 0) default n) st (by decide +kernel)
  exact ⟨hlocal, f, st', hrun, locals_restored 0 default n hlocal st st' (.error f) 0 rfl hrun⟩

end Render

end PageTemplate
