import PageTemplate.Proofs.AppendOnly
import PageTemplate.Proofs.LocalBindings

/-!
Loops over lists. A loop hands out the items of its list in turn and renders its body for each, as long as nothing in
the body makes it go on, which would take an item away. `Turns` says what the turns of a loop are made of, and
`loop_takes_turns` that a loop consists of them.
-/

namespace PageTemplate

/-- A loop over `n` items that has come to `i` of them. -/
def Loop.after (cursor n : Nat) : Nat → Loop
  | 0 => { cursor }
  | i + 1 => { cursor, position := some ⟨i, n, n - (i + 1)⟩ }

/-- A loop and its cursor have come to the first `i` of the items that were left when the loop began. -/
structure Heap.Follows (h : Heap) (loop cursor : Nat) (items : List Value) (i : Nat) : Prop where
  loop_lt : loop < h.loops.length
  cursor_lt : cursor < h.cursors.length
  loop_eq : h.loop loop = .after cursor items.length i
  cursor_eq : ∃ start, (h.cursor cursor).position = start + i ∧ (h.cursor cursor).items.drop start = items

namespace Heap.Follows

variable {h h' : Heap} {loop cursor i : Nat} {items : List Value}

theorem cursor_loop (hf : h.Follows loop cursor items i) : (h.loop loop).cursor = cursor := by
  rw [hf.loop_eq]
  cases i <;> rfl

theorem getElem?_cursor (hf : h.Follows loop cursor items i) :
    (h.cursor cursor).items[(h.cursor cursor).position]? = items[i]? := by
  obtain ⟨start, hposition, hitems⟩ := hf.cursor_eq
  rw [hposition, ← List.getElem?_drop, hitems]

theorem remaining_cursor (hf : h.Follows loop cursor items i) : (h.cursor cursor).remaining = items.length - i := by
  obtain ⟨start, hposition, hitems⟩ := hf.cursor_eq
  rw [Cursor.remaining, hposition, ← hitems, List.length_drop, Nat.sub_sub]

theorem advance {v : Value} {rest : List Value} (hf : h.Follows loop cursor items i) (hrest : items.drop i = v :: rest) :
    (h.advance loop).1 = some v ∧ (h.advance loop).2.Follows loop cursor items (i + 1) := by
  have hv : items[i]? = some v := by rw [← List.head?_drop, hrest, List.head?_cons]
  let c : Cursor := { h.cursor cursor with position := (h.cursor cursor).position + 1 }
  have hnext : h.nextOf cursor = (some v, { h with cursors := h.cursors.set cursor c }) := by
    rw [nextOf, Cursor.next?, hf.getElem?_cursor, hv]
    rfl
  have hcursor : (h.cursors.set cursor c).getD cursor default = c := by
    simp [List.getD_eq_getElem?_getD, hf.cursor_lt]
  have hloop : (h.loop loop).advance c.remaining = .after cursor items.length (i + 1) := by
    have hlt : i < items.length := (List.getElem?_eq_some_iff.1 hv).1
    have hremaining : c.remaining = items.length - (i + 1) := congrArg (· - 1) hf.remaining_cursor
    rw [hf.loop_eq, hremaining]
    cases i <;> simp [Loop.advance, Loop.after] <;> omega
  have hadvance : h.advance loop = (some v, { h with
      cursors := h.cursors.set cursor c
      loops := h.loops.set loop (.after cursor items.length (i + 1)) }) := by
    simp only [Heap.advance, hf.cursor_loop, hnext, Heap.cursor, hcursor, hloop]
  obtain ⟨start, hposition, hitems⟩ := hf.cursor_eq
  rw [hadvance]
  refine ⟨rfl, by simpa using hf.loop_lt, by simpa using hf.cursor_lt, ?_, start, ?_⟩
  · simp [Heap.loop, List.getD_eq_getElem?_getD, hf.loop_lt]
  · rw [Heap.cursor, hcursor]
    exact ⟨congrArg (· + 1) hposition, hitems⟩

theorem advance_none (hf : h.Follows loop cursor items i) (hrest : items.drop i = []) : h.advance loop = (none, h) := by
  have hnone : items[i]? = none := List.getElem?_eq_none (List.drop_eq_nil_iff.1 hrest)
  simp [Heap.advance, hf.cursor_loop, nextOf, Cursor.next?, hf.getElem?_cursor, hnone]

/-- A loop that has come to an item is told from one that is not there, and so is its cursor. -/
theorem of_eq (hf : h.Follows loop cursor items (i + 1)) (hloop : h'.loop loop = h.loop loop)
    (hcursor : h'.cursor cursor = h.cursor cursor) : h'.Follows loop cursor items (i + 1) := by
  obtain ⟨start, hposition, hitems⟩ := hf.cursor_eq
  rw [hf.loop_eq] at hloop
  rw [← hcursor] at hposition hitems
  refine ⟨Nat.lt_of_not_le fun hle => ?_, Nat.lt_of_not_le fun hle => ?_, hloop, start, hposition, hitems⟩
  · rw [Heap.loop, List.getD_eq_getElem?_getD, List.getElem?_eq_none hle] at hloop
    cases hloop
  · rw [Heap.cursor, List.getD_eq_getElem?_getD, List.getElem?_eq_none hle] at hposition
    cases hposition

theorem atEnd_eq (hf : h.Follows loop cursor items (i + 1)) : (h.loop loop).atEnd = (items.drop (i + 1)).isEmpty := by
  rw [hf.loop_eq, Bool.eq_iff_iff]
  simp [Loop.after, Loop.atEnd, Nat.sub_eq_zero_iff_le]

end Heap.Follows

/-! ### Numbering -/

/-- What a loop over `n` items says of itself at item `i`. -/
def Loop.numbering (i n : Nat) : Assoc Value :=
  [(utf8 "index", .ofInt i), (utf8 "number", .ofInt (i + 1)), (utf8 "even", .bool (i % 2 == 0)),
    (utf8 "odd", .bool (i % 2 != 0)), (utf8 "start", .bool (i == 0)), (utf8 "end", .bool (i == n - 1)),
    (utf8 "length", .ofInt n), (utf8 "parity", .text (utf8 (if i % 2 == 0 then "even" else "odd"))),
    (utf8 "letter", .text (Numeral.letters (i + 1))), (utf8 "Letter", .text (Text.upper (Numeral.letters (i + 1)))),
    (utf8 "roman", .text (Text.lower (Numeral.roman (i + 1)))), (utf8 "Roman", .text (Numeral.roman (i + 1)))]

theorem Loop.attributes_after {cursor n i : Nat} (h : i < n) : (after cursor n (i + 1)).attributes = numbering i n := by
  have hend : (n - (i + 1) == 0) = (i == n - 1) := by
    rw [Bool.eq_iff_iff, beq_iff_eq, beq_iff_eq]
    omega
  simp only [attributes, attributeNames, descriptions, after, numbering, hend]
  rfl

/-- The heap after a loop has been advanced a number of times. -/
def Heap.advances (h : Heap) (loop : Nat) : Nat → Heap
  | 0 => h
  | i + 1 => ((h.advances loop i).advance loop).2

namespace Heap.Follows

variable {h : Heap} {loop cursor : Nat} {items : List Value}

theorem step {i : Nat} (hf : h.Follows loop cursor items (min i items.length)) :
    (h.advance loop).1 = items[i]? ∧ (h.advance loop).2.Follows loop cursor items (min (i + 1) items.length) := by
  rcases Nat.lt_or_ge i items.length with hlt | hge
  · rw [Nat.min_eq_left (Nat.le_of_lt hlt)] at hf
    rw [Nat.min_eq_left hlt, List.getElem?_eq_getElem hlt]
    exact hf.advance (List.drop_eq_getElem_cons hlt)
  · rw [Nat.min_eq_right hge] at hf
    rw [Nat.min_eq_right (Nat.le_succ_of_le hge), List.getElem?_eq_none hge, hf.advance_none List.drop_length]
    exact ⟨rfl, hf⟩

theorem advances (hf : h.Follows loop cursor items 0) (i : Nat) :
    (h.advances loop i).Follows loop cursor items (min i items.length) := by
  induction i with
  | zero => rwa [Nat.zero_min]
  | succ i ih => exact ih.step.2

end Heap.Follows

/-- A new loop hands out the items that its cursor has left, one at a time and then none. At each it says the number of the
item, counted from where it began, and what follows from it. -/
theorem Heap.loop_counts_items (h : Heap) {cursor : Nat} (hcursor : cursor < h.cursors.length) :
    let loop := (h.newLoop cursor).1
    let start := (h.newLoop cursor).2
    let left := (h.cursor cursor).items.drop (h.cursor cursor).position
    left.length = (h.cursor cursor).remaining ∧ (∀ i, ((start.advances loop i).advance loop).1 = left[i]?) ∧
      ∀ i < left.length, ((start.advances loop (i + 1)).loop loop).attributes = Loop.numbering i left.length := by
  intro loop start left
  have hloop : start.loop loop = .after cursor left.length 0 := by
    simp [start, loop, newLoop, Heap.loop, Loop.after, List.getD_eq_getElem?_getD]
  have hfollows : start.Follows loop cursor left 0 :=
    ⟨by simp [start, loop, newLoop], hcursor, hloop, (h.cursor cursor).position, rfl, rfl⟩
  refine ⟨List.length_drop, fun i => (hfollows.advances i).step.1, fun i hi => ?_⟩
  have hnext := hfollows.advances (i + 1)
  rw [Nat.min_eq_left hi] at hnext
  rw [hnext.loop_eq, Loop.attributes_after hi]

theorem Heap.loop_counts_items_from_second :
    let h : Heap := { cursors := [⟨[.nil, .bool true, .nil], 1⟩] }
    0 < h.cursors.length ∧ (((h.newLoop 0).2.advances 0 1).advance 0).1 = some .nil ∧
      (((h.newLoop 0).2.advances 0 2).loop 0).attributes = Loop.numbering 1 2 := by
  intro h
  obtain ⟨_, hitems, hsays⟩ := loop_counts_items h (Nat.lt_succ_self 0)
  exact ⟨Nat.lt_succ_self 0, hitems 1, hsays 1 (Nat.lt_succ_self 1)⟩

namespace Render

open Run

variable {name : Bytes} {st st' : State} {items : List Value} {r : Except Failure Unit}
variable {bindings : List (Bytes × Value)}

/-! ### Turns -/

/-- The values that the names of a loop have for an item. -/
def unpacked (names : List Bytes) (v : Value) : List Value :=
  if names.length > 1 then (unpack v names.length).toOption.getD [] else [v]

theorem run_unpackAt {e : Compiled} {names : List Bytes} {v : Value}
    (h : 1 < names.length → ∃ vs, unpack v names.length = .ok vs) (st : State) :
    (unpackAt e names v).run st = some (.ok (unpacked names v), st) := by
  unfold unpackAt unpacked
  split
  · next hseveral =>
    obtain ⟨vs, hvs⟩ := h hseveral
    rw [hvs]
    rfl
  · rfl

/-- The variables after a body for which some were bound, from those before it and those that it leaves. -/
def unbound : List (Bytes × Value) → Vars → Vars → Vars
  | [], _, left => left
  | (name, v) :: rest, vars, left => (unbound rest (vars.insert name v) left).set? name (vars.get? name)

@[simp] theorem run_bindingAll (bindings : List (Bytes × Value)) (body : Run Unit) (st : State) :
    (bindingAll bindings body).run st =
      (body.run { st with vars := st.vars.insertAll bindings }).map fun p =>
        (p.1, { p.2 with vars := unbound bindings st.vars p.2.vars }) := by
  induction bindings generalizing st with
  | nil =>
    exact (congrFun Option.map_id (body.run st)).symm
  | cons b bindings ih =>
    rw [bindingAll, run_binding, ih, Option.map_map]
    rfl

theorem get?_unbound (h : ∀ b ∈ bindings, b.1 ≠ name) (vars left : Vars) :
    (unbound bindings vars left).get? name = left.get? name := by
  induction bindings generalizing vars with
  | nil => rfl
  | cons b bindings ih =>
    obtain ⟨hb, hbindings⟩ := List.forall_mem_cons.1 h
    simp [unbound, Ne.symm hb, ih hbindings]

theorem notMem_zip {names : List Bytes} (h : name ∉ names) (values : List Value) :
    ∀ b ∈ names.zip values, b.1 ≠ name :=
  fun _ hb heq => h (heq ▸ (List.of_mem_zip hb).1)

/-- A turn of a loop: the item, the states between which the body is rendered, and what this comes to. -/
structure Turn where
  item : Value
  start : State
  result : Except Failure Unit
  stop : State

variable {ts : List Turn}

/-- What the body has added to the output. -/
def Turn.written (t : Turn) : Bytes := t.stop.out.text.drop t.start.out.text.length

section Turns

variable (e : Compiled) (names : List Bytes) (whitespace : Bytes) (body : Run Unit) (loop : Nat)

/-- The body is rendered for an item: the loop has gone on to it, it has been noted, and the names are bound. -/
def turnStart (v : Value) (st : State) : State :=
  { modifyHeap (fun h => (h.advance loop).2) st with
    events := .delivered e v :: st.events
    vars := st.vars.insertAll (names.zip (unpacked names v)) }

/-- The state after a body for which the names were bound. -/
def turnStop (v : Value) (st stop : State) : State :=
  { stop with vars := unbound (names.zip (unpacked names v)) st.vars stop.vars }

/-- The state in which a loop goes on to more items. -/
def turnEnd (v : Value) (st stop : State) (more : List Value) : State :=
  let st' := turnStop names v st stop
  if more.isEmpty then st' else { st' with out := st'.out.append whitespace }

/-- The body is rendered for each item from where the turn before ended, with whitespace in between, up to a failing
turn. -/
inductive Turns : List Value → State → List Turn → Except Failure Unit → State → Prop where
  | done (st : State) : Turns [] st [] (.ok ()) st
  | failed {v : Value} {vs : List Value} {st stop : State} {f : Failure} :
      body.run (turnStart e names loop v st) = some (.error f, stop) →
      Turns (v :: vs) st [⟨v, turnStart e names loop v st, .error f, stop⟩] (.error f) (turnStop names v st stop)
  | next {v : Value} {vs : List Value} {st stop st' : State} {ts : List Turn} {r : Except Failure Unit} :
      body.run (turnStart e names loop v st) = some (.ok (), stop) →
      Turns vs (turnEnd names whitespace v st stop vs) ts r st' →
      Turns (v :: vs) st (⟨v, turnStart e names loop v st, .ok (), stop⟩ :: ts) r st'

/-- The body leaves the loop and its cursor where they are, and the variable for running loops as it is. -/
structure LeavesLoop (cursor : Nat) (st st' : State) : Prop where
  loop_eq : st'.world.heap.loop loop = st.world.heap.loop loop
  cursor_eq : st'.world.heap.cursor cursor = st.world.heap.cursor cursor
  loops_eq : st'.vars.get? Expression.loopsName = st.vars.get? Expression.loopsName

/-- No turn of a loop disturbs it. -/
def Steady (cursor : Nat) : List Value → State → Prop
  | [], _ => True
  | v :: vs, st => ∀ r stop, body.run (turnStart e names loop v st) = some (r, stop) →
      LeavesLoop loop cursor (turnStart e names loop v st) stop ∧
        (r = .ok () → Steady cursor vs (turnEnd names whitespace v st stop vs))

end Turns

variable {e : Compiled} {names : List Bytes} {whitespace : Bytes} {body : Run Unit} {loop cursor : Nat}

/-- The loop has come to the first `i` items, and is known by its first name in the table. -/
structure Running (names : List Bytes) (loop cursor table : Nat) (items : List Value) (i : Nat) (st : State) : Prop where
  follows : st.world.heap.Follows loop cursor items i
  entry : (st.world.heap.table table).get? (names.headD []) = some loop
  loops : st.vars.get? Expression.loopsName = some (.loops table)

namespace Running

variable {table i : Nat} {items rest : List Value} {v : Value} {st stop : State}

theorem start (h : Running names loop cursor table items i st) (hnames : Expression.loopsName ∉ names)
    (hrest : items.drop i = v :: rest) :
    Running names loop cursor table items (i + 1) (turnStart e names loop v st) := by
  refine ⟨(h.follows.advance hrest).2, ?_, ?_⟩
  · show ((st.world.heap.advance loop).2.table table).get? _ = _
    rw [Heap.table, Heap.tables_advance]
    exact h.entry
  · show (st.vars.insertAll _).get? _ = _
    rw [Assoc.get?_insertAll_of_ne (notMem_zip hnames _), h.loops]

theorem finish (h : Running names loop cursor table items (i + 1) (turnStart e names loop v st))
    (hnames : Expression.loopsName ∉ names) (htables : TablesKept (turnStart e names loop v st) stop)
    (hstop : LeavesLoop loop cursor (turnStart e names loop v st) stop) (more : List Value) :
    Running names loop cursor table items (i + 1) (turnEnd names whitespace v st stop more) := by
  have hturnStop : Running names loop cursor table items (i + 1) (turnStop names v st stop) := by
    refine ⟨h.follows.of_eq hstop.loop_eq hstop.cursor_eq, ?_, ?_⟩
    · show (stop.world.heap.table table).get? _ = _
      rw [htables.table_eq, h.entry]
    · show (unbound _ _ _).get? _ = _
      rw [get?_unbound (notMem_zip hnames _), hstop.loops_eq, h.loops]
  unfold turnEnd
  split
  · exact hturnStop
  · exact ⟨hturnStop.follows, hturnStop.entry, hturnStop.loops⟩

end Running

/-! ### From the passes of a loop to its turns -/

section Passes

variable {table i : Nat} {rest : List Value} {v : Value} (hnames : Expression.loopsName ∉ names)
  (hbody : Keeps TablesKept body) (hunpack : 1 < names.length → ∀ v ∈ items, ∃ vs, unpack v names.length = .ok vs)

theorem run_iterations_nil (h : st.world.heap.Follows loop cursor items i) (hrest : items.drop i = []) (n : Nat) :
    (iterations e names loop whitespace body (n + 1)).run st = some (.ok (), st) := by
  have hadvance := h.advance_none hrest
  rw [iterations, run_bind]
  show (some (Except.ok (st.world.heap.advance loop).1, modifyHeap (fun h => (h.advance loop).2) st)).bind _ = _
  rw [hadvance]
  simp only [modifyHeap, hadvance]
  rfl

include hnames hbody

theorem Running.next (h : Running names loop cursor table items i st) (hrest : items.drop i = v :: rest)
    (hsteady : Steady e names whitespace body loop cursor (v :: rest) st) {stop : State} {r : Except Failure Unit}
    (hturn : body.run (turnStart e names loop v st) = some (r, stop)) :
    items.drop (i + 1) = rest ∧
      Running names loop cursor table items (i + 1) (turnEnd names whitespace v st stop rest) :=
  ⟨by rw [← List.tail_drop, hrest, List.tail_cons],
    (h.start hnames hrest).finish hnames (hbody _ _ _ hturn) (hsteady _ _ hturn).1 rest⟩

include hunpack

theorem run_iterations_cons (h : Running names loop cursor table items i st) (hrest : items.drop i = v :: rest)
    (hsteady : Steady e names whitespace body loop cursor (v :: rest) st) (n : Nat) :
    (iterations e names loop whitespace body (n + 1)).run st =
      (body.run (turnStart e names loop v st)).bind fun p =>
        match p.1 with
        | .error f => some (.error f, turnStop names v st p.2)
        | .ok () => (iterations e names loop whitespace body n).run (turnEnd names whitespace v st p.2 rest) := by
  have hadvance : (advance loop).run st = some (.ok (some v), modifyHeap (fun h => (h.advance loop).2) st) := by
    rw [← (h.follows.advance hrest).1]
    rfl
  have hv : v ∈ items := List.mem_of_mem_drop (hrest ▸ List.mem_cons_self)
  rw [iterations, run_bind, hadvance, Option.bind_some]
  dsimp only
  rw [note, run_modify_bind, run_bind, run_unpackAt (hunpack · v hv), Option.bind_some]
  dsimp only
  rw [run_bind, run_bindingAll, Option.bind_map]
  change (body.run (turnStart e names loop v st)).bind _ = _
  cases hturn : body.run (turnStart e names loop v st) with
  | none => rfl
  | some p =>
    obtain ⟨r, stop⟩ := p
    cases r with
    | error f => rfl
    | ok u =>
      have hend : ((turnStop names v st stop).world.heap.loop loop).atEnd = rest.isEmpty := by
        obtain ⟨hrest', hnext⟩ := h.next hnames hbody hrest hsteady hturn
        have hatEnd := hnext.follows.atEnd_eq
        rw [hrest'] at hatEnd
        cases rest <;> exact hatEnd
      show (get >>= _ : Run Unit).run (turnStop names v st stop) = _
      rw [run_get_bind, hend]
      cases rest with
      | nil => rfl
      | cons => rfl

theorem run_iterations_eq_some_iff {n : Nat} (h : Running names loop cursor table items i st)
    (hrest : items.drop i = rest) (hsteady : Steady e names whitespace body loop cursor rest st) (hn : rest.length < n) :
    (iterations e names loop whitespace body n).run st = some (r, st') ↔
      ∃ ts, Turns e names whitespace body loop rest st ts r st' := by
  obtain ⟨n, rfl⟩ := Nat.exists_eq_add_one_of_ne_zero (Nat.ne_zero_of_lt hn)
  induction rest generalizing i st n with
  | nil =>
    rw [run_iterations_nil h.follows hrest]
    constructor
    · intro hrun
      cases hrun
      exact ⟨[], .done _⟩
    · rintro ⟨_, hts⟩
      cases hts
      rfl
  | cons v rest ih =>
    obtain ⟨n, rfl⟩ := Nat.exists_eq_add_one_of_ne_zero (Nat.ne_zero_of_lt (Nat.lt_of_succ_lt_succ hn))
    have hih : ∀ {stop}, body.run (turnStart e names loop v st) = some (.ok (), stop) →
        ((iterations e names loop whitespace body (n + 1)).run (turnEnd names whitespace v st stop rest) = some (r, st') ↔
          ∃ ts, Turns e names whitespace body loop rest (turnEnd names whitespace v st stop rest) ts r st') := by
      intro stop hturn
      obtain ⟨hrest', hnext⟩ := h.next hnames hbody hrest hsteady hturn
      exact ih hnext hrest' ((hsteady _ _ hturn).2 rfl) n (Nat.lt_of_succ_lt_succ hn)
    rw [run_iterations_cons hnames hbody hunpack h hrest hsteady, Option.bind_eq_some_iff]
    constructor
    · rintro ⟨⟨r₁, stop⟩, hturn, hrun⟩
      cases r₁ with
      | error f =>
        cases hrun
        exact ⟨_, .failed hturn⟩
      | ok u =>
        obtain ⟨ts, hts⟩ := (hih hturn).1 hrun
        exact ⟨_, .next hturn hts⟩
    · rintro ⟨ts, hts⟩
      cases hts with
      | failed hturn => exact ⟨_, hturn, rfl⟩
      | next hturn hts => exact ⟨_, hturn, (hih hturn).2 ⟨_, hts⟩⟩

omit hunpack in
theorem Turns.running (hts : Turns e names whitespace body loop rest st ts r st')
    (h : Running names loop cursor table items i st) (hrest : items.drop i = rest)
    (hsteady : Steady e names whitespace body loop cursor rest st) :
    ∀ j t, ts[j]? = some t → Running names loop cursor table items (i + 1 + j) t.start := by
  induction hts generalizing i with
  | done st => simp
  | failed hturn =>
    intro j t ht
    cases j with
    | zero =>
      cases ht
      exact h.start hnames hrest
    | succ j => cases ht
  | next hturn hts ih =>
    intro j t ht
    cases j with
    | zero =>
      cases ht
      exact h.start hnames hrest
    | succ j =>
      obtain ⟨hrest', hnext⟩ := h.next hnames hbody hrest hsteady hturn
      rw [← Nat.add_assoc, Nat.add_right_comm _ j]
      exact ih hnext hrest' ((hsteady _ _ hturn).2 rfl) j t ht

end Passes

theorem Turns.results (h : Turns e names whitespace body loop items st ts r st') :
    (∀ t ∈ ts, body.run t.start = some (t.result, t.stop) ∧ ∃ s, t.start = turnStart e names loop t.item s) ∧
      (r = .ok () ∧ ts.map Turn.item = items ∧ (∀ t ∈ ts, t.result = .ok ()) ∨
        ∃ before t f, ts = before ++ [t] ∧ ts.map Turn.item <+: items ∧ r = .error f ∧ t.result = .error f ∧
          ∀ t ∈ before, t.result = .ok ()) := by
  induction h with
  | done st => simp
  | failed hturn =>
    exact ⟨List.forall_mem_singleton.2 ⟨hturn, _, rfl⟩, .inr ⟨[], _, _, rfl, ⟨_, rfl⟩, rfl, rfl, by simp⟩⟩
  | next hturn _ ih =>
    refine ⟨List.forall_mem_cons.2 ⟨⟨hturn, _, rfl⟩, ih.1⟩, ?_⟩
    rcases ih.2 with ⟨hr, hitems, hall⟩ | ⟨before, t, f, rfl, hitems, hr, ht, hall⟩
    · exact .inl ⟨hr, congrArg _ hitems, List.forall_mem_cons.2 ⟨rfl, hall⟩⟩
    · exact .inr ⟨_ :: before, t, f, rfl, List.cons_prefix_cons.2 ⟨rfl, hitems⟩, hr, ht,
        List.forall_mem_cons.2 ⟨rfl, hall⟩⟩

theorem Turns.events {items : List Value} {st st' : State} {r : Except Failure Unit}
    (h : Turns e names whitespace body loop items st ts r st') :
    (∀ (i : Nat) (t : Turn) (events : List Event), ts[i]? = some t →
      (st.events :: ts.map (·.stop.events))[i]? = some events → t.start.events = .delivered e t.item :: events) ∧
    st'.events = (ts.map (·.stop.events)).getLastD st.events := by
  induction h with
  | done st => simp
  | failed hturn =>
    refine ⟨fun i t events ht hevents => ?_, rfl⟩
    cases i with
    | zero =>
      cases ht
      cases hevents
      rfl
    | succ i => cases ht
  | @next v vs st stop st' ts r hturn hts ih =>
    have hend : (turnEnd names whitespace v st stop vs).events = stop.events := by
      unfold turnEnd
      split <;> rfl
    rw [hend] at ih
    refine ⟨fun i t events ht hevents => ?_, ih.2.trans (List.getLastD_cons ..).symm⟩
    cases i with
    | zero =>
      cases ht
      cases hevents
      rfl
    | succ i => exact ih.1 i t events ht hevents

theorem Turns.text_out (h : Turns e names whitespace body loop items st ts r st') (hbody : Transparent body) :
    (∀ t ∈ ts, t.stop.out.text = t.start.out.text ++ t.written) ∧
      st'.out.text = st.out.text ++ whitespace.intercalate (ts.map Turn.written) := by
  have hwritten : ∀ {v st stop r}, body.run (turnStart e names loop v st) = some (r, stop) →
      stop.out.text = st.out.text ++ Turn.written ⟨v, turnStart e names loop v st, r, stop⟩ := by
    intro v st stop r hrun
    obtain ⟨written, _, hout, _⟩ := hbody.exists_ending hrun
    rw [Turn.written, hout, Output.text_followedBy, List.drop_left]
    rfl
  induction h with
  | done st => simp
  | @failed v _ st stop f hturn =>
    have hout := hwritten hturn
    refine ⟨List.forall_mem_singleton.2 hout, ?_⟩
    rw [List.map_singleton, List.intercalate_singleton]
    exact hout
  | @next v vs st stop st' ts r hturn hts ih =>
    have hout := hwritten hturn
    refine ⟨List.forall_mem_cons.2 ⟨hout, ih.1⟩, ?_⟩
    cases vs with
    | nil =>
      cases hts
      rw [List.map_singleton, List.intercalate_singleton]
      exact hout
    | cons v' vs =>
      obtain ⟨t, ts, rfl⟩ : ∃ t ts', ts = t :: ts' := by cases hts <;> exact ⟨_, _, rfl⟩
      have hend : (turnEnd names whitespace v st stop (v' :: vs)).out.text = stop.out.text ++ whitespace :=
        Output.text_append _ _
      rw [ih.2, hend, hout, List.map_cons, List.map_cons, List.map_cons, List.intercalate_cons_cons]
      simp only [List.append_assoc]

/-! ### Loops -/

/-- The table of running loops, and the state with a new one if there is none. -/
def withTable (st : State) : Nat × State :=
  match st.vars.get? Expression.loopsName with
  | some (.loops id) => (id, st)
  | _ =>
    let (id, heap) := st.world.heap.newTable
    (id, { st with world := { st.world with heap }, vars := st.vars.insert Expression.loopsName (.loops id) })

@[simp] theorem run_loopTable (st : State) : loopTable.run st = some (.ok (withTable st).1, (withTable st).2) := by
  rw [loopTable, run_get_bind, withTable]
  generalize st.vars.get? Expression.loopsName = v
  rcases v with _ | v
  · rfl
  · cases v <;> rfl

theorem withTable_cells (st : State) : (withTable st).2.world.heap.loops = st.world.heap.loops ∧
    (withTable st).2.world.heap.cursors = st.world.heap.cursors ∧ (withTable st).2.out = st.out ∧
    (withTable st).2.events = st.events := by
  unfold withTable
  split <;> exact ⟨rfl, rfl, rfl, rfl⟩

theorem withTable_table
    (h : ∀ id, st.vars.get? Expression.loopsName = some (.loops id) → id < st.world.heap.tables.length) :
    (withTable st).2.vars.get? Expression.loopsName = some (.loops (withTable st).1) ∧
      (withTable st).1 < (withTable st).2.world.heap.tables.length := by
  unfold withTable
  split
  · next id hid => exact ⟨hid, h id hid⟩
  · exact ⟨by simp, by simp [Heap.newTable]⟩

/-- A loop over a list begins: its cursor and itself are new cells, and the table has it. -/
def loopStart (names : List Bytes) (items : List Value) (st : State) : State :=
  let (table, st') := withTable (modifyHeap (fun h => ((h.newCursor items).2.newLoop h.cursors.length).2) st)
  modifyHeap (fun h => h.setTableEntry table (names.headD []) (some st.world.heap.loops.length)) st'

theorem follows_loopStart (names : List Bytes) (items : List Value) (st : State) :
    (loopStart names items st).world.heap.Follows st.world.heap.loops.length st.world.heap.cursors.length items 0 := by
  obtain ⟨hloops, hcursors, _⟩ :=
    withTable_cells (modifyHeap (fun h => ((h.newCursor items).2.newLoop h.cursors.length).2) st)
  have hloops : (loopStart names items st).world.heap.loops =
      st.world.heap.loops ++ [.after st.world.heap.cursors.length items.length 0] := hloops
  have hcursors : (loopStart names items st).world.heap.cursors = st.world.heap.cursors ++ [⟨items, 0⟩] := hcursors
  refine ⟨by simp [hloops], by simp [hcursors], ?_, ?_⟩
  · simp [Heap.loop, hloops, List.getD_eq_getElem?_getD]
  · simp [Heap.cursor, hcursors, List.getD_eq_getElem?_getD]

/-- A loop that begins stands before its first item. The table has to exist, if it is referred to. -/
theorem running_loopStart (names : List Bytes) (items : List Value)
    (htable : ∀ id, st.vars.get? Expression.loopsName = some (.loops id) → id < st.world.heap.tables.length) :
    ∃ table, Running names st.world.heap.loops.length st.world.heap.cursors.length table items 0
      (loopStart names items st) := by
  obtain ⟨hloops, hlt⟩ :=
    @withTable_table (modifyHeap (fun h => ((h.newCursor items).2.newLoop h.cursors.length).2) st) htable
  refine ⟨_, follows_loopStart names items st, ?_, hloops⟩
  show (Heap.table (Heap.setTableEntry _ _ _ _) _).get? _ = _
  rw [Heap.table_setTableEntry, if_pos ⟨rfl, hlt⟩, Assoc.get?_set?, if_pos rfl]

theorem run_renderLoop (whitespace : Bytes) (body : Run Unit) {frame : Frame} {st₁ : State} {source : Value}
    (hsource : (evaluate frame e).run st = some (.ok source, st₁))
    (hitems : st₁.world.heap.iterate (names.length > 1) source = .ok (st₁.world.heap.newCursor items)) :
    ∃ restore : Heap → Heap, (renderLoop frame names e whitespace body).run st =
      ((iterations e names st₁.world.heap.loops.length whitespace body (items.length + 1)).run
        (loopStart names items st₁)).map fun p => (p.1, modifyHeap restore p.2) := by
  have hcount : ((loopStart names items st₁).world.heap.cursor st₁.world.heap.cursors.length).remaining =
      items.length := (follows_loopStart names items st₁).remaining_cursor
  rw [renderLoop, run_bind, hsource, Option.bind_some]
  dsimp only
  rw [run_get_bind, hitems]
  dsimp only [Heap.newCursor]
  rw [run_modify_bind, run_bind, run_loopTable, Option.bind_some]
  dsimp only
  rw [run_get_bind, run_modify_bind, run_get_bind, run_restoring, ← hcount]
  exact ⟨_, rfl⟩

/-- A loop over a list takes one turn for each item, in order, if no turn disturbs the loop: it comes to a result if the
turns do, and to the same one. Nothing is written before the first turn, when its expression is evaluated. In each turn
the names are bound to the item, and the loop known by the first name stands at it. What the turns have written is
joined with the whitespace, and a failing turn is the last. -/
theorem loop_takes_turns (depth : Nat) (frame : Frame) (names : List Bytes) (e : Compiled) (n : Node Compiled)
    (whitespace : Bytes) {st st₁ : State} {source : Value} {items : List Value}
    (hsource : (evaluate frame e).run st = some (.ok source, st₁))
    (hitems : st₁.world.heap.iterate (names.length > 1) source = .ok (st₁.world.heap.newCursor items))
    (hunpack : 1 < names.length → ∀ v ∈ items, ∃ vs, unpack v names.length = .ok vs)
    (htable : ∀ id, st₁.vars.get? Expression.loopsName = some (.loops id) → id < st₁.world.heap.tables.length)
    (hnames : Expression.loopsName ∉ names)
    (hsteady : Steady e names whitespace (node (toDepth depth) frame n) st₁.world.heap.loops.length
      st₁.world.heap.cursors.length items (loopStart names items st₁)) :
    ∃ restore table, st₁.out = st.out ∧
      (∀ r st', (node (toDepth depth) frame (.loop names e n whitespace)).run st = some (r, st') ↔
        ∃ ts s, Turns e names whitespace (node (toDepth depth) frame n) st₁.world.heap.loops.length items
          (loopStart names items st₁) ts r s ∧ modifyHeap restore s = st') ∧
      ∀ ts r s, Turns e names whitespace (node (toDepth depth) frame n) st₁.world.heap.loops.length items
          (loopStart names items st₁) ts r s →
        (∀ t ∈ ts, (node (toDepth depth) frame n).run t.start = some (t.result, t.stop)) ∧
        (r = .ok () ∧ ts.map Turn.item = items ∧ (∀ t ∈ ts, t.result = .ok ()) ∨
          ∃ before t f, ts = before ++ [t] ∧ ts.map Turn.item <+: items ∧ r = .error f ∧ t.result = .error f ∧
            ∀ t ∈ before, t.result = .ok ()) ∧
        (∀ (i : Nat) (t : Turn), ts[i]? = some t →
          t.start.vars.get? Expression.loopsName = some (.loops table) ∧
          (t.start.world.heap.table table).get? (names.headD []) = some st₁.world.heap.loops.length ∧
          (t.start.world.heap.loop st₁.world.heap.loops.length).position =
            some ⟨i, items.length, items.length - (i + 1)⟩ ∧
          ∃ vars : Vars, t.start.vars = vars.insertAll (names.zip (unpacked names t.item))) ∧
        (∀ (i : Nat) (t : Turn) (events : List Event), ts[i]? = some t →
          (st₁.events :: ts.map (·.stop.events))[i]? = some events → t.start.events = .delivered e t.item :: events) ∧
        s.events = (ts.map (·.stop.events)).getLastD st₁.events ∧
        (∀ t ∈ ts, t.stop.out.text = t.start.out.text ++ t.written) ∧
        s.out.text = st₁.out.text ++ whitespace.intercalate (ts.map Turn.written) := by
  obtain ⟨restore, hloop⟩ := run_renderLoop whitespace (node (toDepth depth) frame n) hsource hitems
  obtain ⟨table, hstart⟩ := running_loopStart names items htable
  have hbody : Keeps TablesKept (node (toDepth depth) frame n) :=
    (TablesKept.lasting.rendering (TablesKept.lasting.keeps_toDepth depth)).keeps_node n frame fun _ _ => trivial
  refine ⟨restore, table, (Wordless.evaluate frame e).out_eq hsource, fun r st' => ?_, fun ts r s hts => ?_⟩
  · rw [node, hloop, Option.map_eq_some_iff]
    constructor
    · rintro ⟨⟨r', s⟩, hrun, heq⟩
      cases heq
      obtain ⟨ts, hts⟩ :=
        (run_iterations_eq_some_iff hnames hbody hunpack hstart List.drop_zero hsteady (Nat.lt_succ_self _)).1 hrun
      exact ⟨ts, s, hts, rfl⟩
    · rintro ⟨ts, s, hts, rfl⟩
      exact ⟨(r, s), (run_iterations_eq_some_iff hnames hbody hunpack hstart List.drop_zero hsteady
        (Nat.lt_succ_self _)).2 ⟨ts, hts⟩, rfl⟩
  · obtain ⟨hall, hresults⟩ := hts.results
    obtain ⟨hwritten, hout⟩ := hts.text_out (Transparent.pervasive.node depth frame n [])
    obtain ⟨hnoted, hevents⟩ := hts.events
    obtain ⟨_, _, hout₁, hevents₁⟩ :=
      withTable_cells (modifyHeap (fun h => ((h.newCursor items).2.newLoop h.cursors.length).2) st₁)
    replace hout₁ : (loopStart names items st₁).out = st₁.out := hout₁
    replace hevents₁ : (loopStart names items st₁).events = st₁.events := hevents₁
    rw [hevents₁] at hnoted hevents
    rw [hout₁] at hout
    refine ⟨fun t ht => (hall t ht).1, hresults, fun i t ht => ?_, hnoted, hevents, hwritten, hout⟩
    obtain ⟨hfollows, hentry, hloops⟩ := hts.running hnames hbody hstart List.drop_zero hsteady i t ht
    rw [Nat.zero_add, Nat.add_comm] at hfollows
    obtain ⟨s, hs⟩ := (hall t (List.mem_of_getElem? ht)).2
    exact ⟨hloops, hentry, congrArg Loop.position hfollows.loop_eq, s.vars, congrArg State.vars hs⟩

theorem loop_takes_turns_text :
    let x := utf8 "x"
    let items : List Value := [.ofInt 1, .ofInt 2]
    let e : Compiled := ⟨0, .constant (.list items), default⟩
    let body : Node Compiled := .content ⟨1, .path x [], default⟩ false false
    let st : State := { world := {}, out := ⟨[utf8 "a"]⟩ }
    ∃ (ts : List Turn) (st' : State), (node (toDepth 0) default (.loop [x] e body (utf8 ","))).run st = some (.ok (), st') ∧
      ts.map Turn.item = items ∧ ts.map Turn.written = [utf8 "1", utf8 "2"] ∧
      st'.out.text = st.out.text ++ (utf8 ",").intercalate (ts.map Turn.written) := by
  intro x items e body st
  let st₁ : State := { st with
    events := [.evaluated e (.ok (.list items))]
    views := [⟨default, e, [], [], {}⟩] }
  have hsource : (evaluate default e).run st = some (.ok (.list items), st₁) := rfl
  have hsteady : Steady e [x] (utf8 ",") (node (toDepth 0) default body) 0 0 items (loopStart [x] items st₁) := by
    intro r stop h
    cases h
    refine ⟨⟨rfl, rfl, rfl⟩, fun _ => ?_⟩
    intro r stop h
    cases h
    exact ⟨⟨rfl, rfl, rfl⟩, fun _ => trivial⟩
  obtain ⟨ts, s, hts, hitems, hwritten⟩ : ∃ ts s, Turns e [x] (utf8 ",") (node (toDepth 0) default body) 0 items
      (loopStart [x] items st₁) ts (.ok ()) s ∧ ts.map Turn.item = items ∧
        ts.map Turn.written = [utf8 "1", utf8 "2"] :=
    ⟨_, _, .next rfl (.next rfl (.done _)), rfl, by decide +kernel⟩
  obtain ⟨_, _, hstart, hrun, hturns⟩ := loop_takes_turns 0 default [x] e body (utf8 ",") hsource rfl
    (by simp) (by simp [st₁, st]) (by decide) hsteady
  obtain ⟨_, _, _, _, _, _, hout⟩ := hturns ts _ s hts
  rw [hstart] at hout
  exact ⟨ts, _, (hrun _ _).2 ⟨ts, s, hts, rfl⟩, hitems, hwritten, hout⟩

/-- A body that makes its loop go on takes the item away from the next turn. -/
theorem loop_skips_taken_item :
    let x := utf8 "x"
    let e : Compiled := ⟨0, .constant (.list [.ofInt 1, .ofInt 2, .ofInt 3]), default⟩
    let loop : Expression.Plan := .fetch [.name (utf8 "repeat"), .constant (.text x)]
    let next : Compiled := ⟨1, .term [] [] (.call (.fetch [loop, .constant (.text (utf8 "Next"))]) []), default⟩
    let n : Node Compiled := .loop [x] e (.define [{ names := [utf8 "y"], expr := next }]
      (.content ⟨2, .path x [], default⟩ false false)) (utf8 ",")
    ((node (toDepth 0) default n).run { world := {} }).map (fun p => (p.1.toOption, p.2.out.text)) =
      some (some (), utf8 "1,3") := by decide +kernel

end Render

end PageTemplate
