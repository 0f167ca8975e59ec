import PageTemplate.Proofs.Assoc
import PageTemplate.Proofs.Render.Effect

/-!
Macro calls and the variables of the caller. A macro works on a copy of the variables, and what the render as a whole
remembers is copied into them when the call ends. That includes definitions for the whole render from before the call,
also over a local binding of the name made since. The main statement says what every variable is after a call.
-/

namespace PageTemplate.Render

open Run (Keeps)

/-- The store has changed by the given definitions only, newest first, recorded failures apart. -/
structure Follows (definitions : Assoc Value) (st st' : State) : Prop where
  assigned_eq : st'.assigned = definitions ++ st.assigned
  get?_remote (name : Bytes) : name ≠ Remote.errorKey →
    st'.remote.get? name = (definitions.get? name).or (st.remote.get? name)
  nodup_keys : st.remote.keys.Nodup → st'.remote.keys.Nodup

namespace Follows

variable {st st' st'' : State}

theorem of_remote_eq (hremote : st'.remote = st.remote) (hassigned : st'.assigned = st.assigned) :
    Follows [] st st' :=
  ⟨hassigned, fun name _ => by rw [hremote]; rfl, fun h => hremote ▸ h⟩

theorem trans {ds ds' : Assoc Value} (h : Follows ds st st') (h' : Follows ds' st' st'') :
    Follows (ds' ++ ds) st st'' := by
  refine ⟨?_, fun name hname => ?_, fun hst => h'.nodup_keys (h.nodup_keys hst)⟩
  · rw [h'.assigned_eq, h.assigned_eq, List.append_assoc]
  · have happend : (ds' ++ ds).get? name = (ds'.get? name).or (ds.get? name) := List.lookup_append
    rw [h'.get?_remote name hname, h.get?_remote name hname, happend, Option.or_assoc]

theorem record (st : State) (v : Value) :
    Follows [] st { st with remote := st.remote.insert Remote.errorKey v } :=
  ⟨rfl, fun name hname => by rw [Assoc.get?_insert, if_neg hname]; rfl,
    fun h => Assoc.nodup_keys_insert h _ _⟩

theorem setGlobal (st : State) (name : Bytes) (v : Value) :
    Follows [(name, v)] st { st with
      vars := st.vars.insert name v
      remote := st.remote.insert name v
      assigned := (name, v) :: st.assigned } := by
  refine ⟨rfl, fun n _ => ?_, fun h => Assoc.nodup_keys_insert h _ _⟩
  rw [Assoc.get?_insert, Assoc.get?_cons, Assoc.get?_nil]
  split <;> rfl

end Follows

/-- The store of the whole render changes by definitions only. -/
def StoreGrows (st st' : State) : Prop := ∃ definitions, Follows definitions st st'

namespace StoreGrows

theorem of_remote_eq {st st' : State} (hremote : st'.remote = st.remote)
    (hassigned : st'.assigned = st.assigned) : StoreGrows st st' :=
  ⟨[], .of_remote_eq hremote hassigned⟩

theorem aloof : Aloof StoreGrows where
  trans := fun ⟨_, h⟩ ⟨_, h'⟩ => ⟨_, h.trans h'⟩
  world _ _ _ := of_remote_eq rfl rfl
  views _ _ _ _ _ := of_remote_eq rfl rfl
  apart _ _ _ _ _ := of_remote_eq rfl rfl
  failures st v := ⟨[], .record st v⟩

theorem lasting : Lasting StoreGrows :=
  aloof.lasting (fun _ _ => of_remote_eq rfl rfl) (fun _ _ => of_remote_eq rfl rfl)
    fun name v => .modify fun st => ⟨[(name, v)], .setGlobal st name v⟩

end StoreGrows

/-! ### Calls -/

/-- The variables and the store are as before, recorded failures apart. -/
structure DefinesNothing (st st' : State) : Prop extends Follows [] st st' where
  vars_eq : st'.vars = st.vars

theorem DefinesNothing.aloof : Aloof DefinesNothing where
  trans h h' := ⟨h.toFollows.trans h'.toFollows, h'.vars_eq.trans h.vars_eq⟩
  world _ _ _ := ⟨.of_remote_eq rfl rfl, rfl⟩
  views _ _ _ _ _ := ⟨.of_remote_eq rfl rfl, rfl⟩
  apart _ _ _ _ _ := ⟨.of_remote_eq rfl rfl, rfl⟩
  failures st v := ⟨.record st v, rfl⟩

/-- The value of a variable after a call: its last definition made meanwhile, or what the store held before, or what it
was. Recorded failures are not taken over. -/
def afterCall (st : State) (definitions : Assoc Value) (name : Bytes) : Option Value :=
  if name = Remote.errorKey then st.vars.get? name
  else ((definitions.get? name).or (st.remote.get? name)).or (st.vars.get? name)

theorem DefinesNothing.afterCall_eq {st st' : State} (h : DefinesNothing st st') (definitions : Assoc Value)
    (name : Bytes) : afterCall st' definitions name = afterCall st definitions name := by
  unfold afterCall
  rw [h.vars_eq]
  split
  · rfl
  · next hname =>
    rw [h.get?_remote name hname]
    rfl

theorem get?_mergeInto {remote : Remote} (h : remote.keys.Nodup) (vars : Vars) (name : Bytes) :
    (remote.mergeInto vars).get? name =
      if name = Remote.errorKey then vars.get? name
      else (remote.get? name).or (vars.get? name) := by
  have herase : remote.mergeInto vars = vars.insertAll (remote.erase Remote.errorKey) := rfl
  rw [herase, Assoc.get?_insertAll (Assoc.nodup_keys_erase h _), Assoc.get?_erase]
  split <;> rfl

theorem exists_definitions_of_callMacro {depth : Nat} {frame : Frame}
    {fills : List (Bytes × Node Compiled)} {extend : Bool} {m : Value} {st st' : State}
    {r : Except Failure Unit} (hstore : st.remote.keys.Nodup)
    (hrun : (callMacro (toDepth depth) frame fills extend m).run st = some (r, st')) :
    st'.remote.keys.Nodup ∧ ∃ definitions : Assoc Value, st'.assigned = definitions ++ st.assigned ∧
      ∀ name, st'.vars.get? name = afterCall st definitions name := by
  have hR := StoreGrows.lasting
  rw [callMacro, Run.run_get_bind] at hrun
  obtain ⟨st₁, hmacro, rfl⟩ := Run.run_restoring_eq_some hrun
  obtain ⟨definitions, hfollows⟩ := hR.renderMacro (hR.keeps_toDepth depth) _ m _ _ _ hmacro
  have hstore₁ := hfollows.nodup_keys hstore
  refine ⟨hstore₁, definitions, hfollows.assigned_eq, fun name => ?_⟩
  simp only [get?_mergeInto hstore₁, afterCall]
  split
  · rfl
  · next hname => rw [hfollows.get?_remote name hname]

def IsCall : Node Compiled → Prop
  | .useInternal _ _ _ | .useExternal _ _ _ => True
  | _ => False

/-- The node calls a macro: one of its own template, or what an expression gives, if that is one. -/
def CallsMacro (frame : Frame) (st : State) : Node Compiled → Prop
  | .useInternal _ _ _ => True
  | .useExternal e _ _ => ∃ v st₁, (evaluate frame e).run st = some (.ok v, st₁) ∧ isMacro v = true
  | _ => False

/-- After the call of a macro, also if it fails, every variable has the last value defined for the whole render during
the call, or else before it, or else the value that it had. If there is no macro to call, nothing changes. Each name
stands once in the store, before and after. -/
theorem vars_after_call (depth : Nat) (frame : Frame) (n : Node Compiled) (hn : IsCall n)
    (st st' : State) (r : Except Failure Unit) (hstore : st.remote.keys.Nodup)
    (hrun : (node (toDepth depth) frame n).run st = some (r, st')) :
    st'.remote.keys.Nodup ∧ ∃ definitions : Assoc Value, st'.assigned = definitions ++ st.assigned ∧
      (CallsMacro frame st n → ∀ name, st'.vars.get? name = afterCall st definitions name) ∧
      (¬ CallsMacro frame st n → definitions = [] ∧ st'.vars = st.vars) := by
  cases n with
  | useInternal name slots extend =>
    rw [node, Run.run_get_bind] at hrun
    obtain ⟨hstore', definitions, hassigned, hvars⟩ := exists_definitions_of_callMacro hstore hrun
    exact ⟨hstore', definitions, hassigned, fun _ => hvars, fun h => absurd trivial h⟩
  | useExternal e slots extend =>
    rw [node] at hrun
    have hR := DefinesNothing.aloof
    -- The expression is evaluated in the caller's scope, before anything can be defined.
    rcases Run.run_bind_eq_some hrun with ⟨v, st₁, heval, hrest⟩ | ⟨f, heval, _⟩
    · have hsame := hR.evaluate frame trivial _ _ _ heval
      split at hrest
      · next hmacro =>
        obtain ⟨hstore', definitions, hassigned, hvars⟩ :=
          exists_definitions_of_callMacro (hsame.nodup_keys hstore) hrest
        refine ⟨hstore', definitions, ?_, fun _ name => ?_,
          fun h => absurd ⟨v, st₁, heval, hmacro⟩ h⟩
        · rw [hassigned, hsame.assigned_eq]
          rfl
        · rw [hvars, hsame.afterCall_eq]
      · next hmacro =>
        have hsame := hR.trans hsame (hR.failAt e _ _ _ _ hrest)
        refine ⟨hsame.nodup_keys hstore, [], hsame.assigned_eq, ?_,
          fun _ => ⟨rfl, hsame.vars_eq⟩⟩
        rintro ⟨u, st₂, heval', hu⟩
        rw [heval] at heval'
        cases heval'
        exact absurd hu hmacro
    · have hsame := hR.evaluate frame trivial _ _ _ heval
      refine ⟨hsame.nodup_keys hstore, [], hsame.assigned_eq, ?_,
        fun _ => ⟨rfl, hsame.vars_eq⟩⟩
      rintro ⟨u, st₂, heval', _⟩
      rw [heval] at heval'
      cases heval'
  | _ => exact hn.elim

theorem vars_after_call_of_host :
    let n : Node Compiled := .useExternal ⟨0, .constant (.hostMacro (utf8 "m")), default⟩ [] false
    let x := utf8 "x"
    let st : State :=
      { world := {}, vars := [(x, .ofInt 2)], remote := [(x, .ofInt 1)], assigned := [(x, .ofInt 1)] }
    IsCall n ∧ st.remote.keys.Nodup ∧ CallsMacro default st n ∧
      ∃ definitions st', (node (toDepth 0) default n).run st = some (.ok (), st') ∧
        st'.assigned = definitions ++ st.assigned ∧
        ∀ name, st'.vars.get? name = afterCall st definitions name := by
  intro n x st
  have hcalls : CallsMacro default st n := ⟨_, _, rfl, rfl⟩
  have hstore : st.remote.keys.Nodup := by decide
  obtain ⟨_, definitions, hassigned, hvars, _⟩ :=
    vars_after_call 0 default n trivial st _ _ hstore rfl
  exact ⟨trivial, hstore, hcalls, definitions, _, rfl, hassigned, hvars hcalls⟩

/-- A macro that does nothing brings back an earlier definition of a name that is bound locally. -/
theorem call_overwrites_local_binding :
    let m := utf8 "m"
    let x := utf8 "x"
    let program : Program := { (default : Program) with macros := [(m, .omitted)] }
    let st : State :=
      { world := { programs := [program] }, vars := [(x, .ofInt 2)], remote := [(x, .ofInt 1)]
        assigned := [(x, .ofInt 1)] }
    ∃ st', (node (toDepth 1) default (.useInternal m [] false)).run st = some (.ok (), st') ∧
      st'.assigned = st.assigned ∧ st.vars.get? x = some (.ofInt 2) ∧
      st'.vars.get? x = some (.ofInt 1) := by
  intro m x program st
  exact ⟨_, rfl, rfl, rfl, rfl⟩

end PageTemplate.Render
