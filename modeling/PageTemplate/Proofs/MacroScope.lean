import PageTemplate.Proofs.Render.Alike
import PageTemplate.Proofs.ReservedNames

/-!
Macros called by name and through the scope. A call of `macros.n` in the template that defines the macro does not look
at the scope; written in another way, the expression goes through the variable `macros`, which every body sets to the
macros of its own template and which no clause can bind. The two calls come to the same wherever the scope has the
variable from the template that the call is written in: in all of its bodies, but not in a fill handed to a macro of
another template. `Exchanged.alike` is the induction over nodes, and `alike_toDepth` the one over the depth of calls.
-/

namespace PageTemplate.Render

open Run (Keeps)

variable {name : Bytes} {e : Compiled} {n : Node Compiled}

/-! ### Nodes -/

/-- The node has no nodes below it that are rendered in its place. -/
def IsLeaf : Node Compiled → Prop
  | .absent | .text _ | .interpolation _ _ | .attr _ | .attributeMap _ _ | .content _ _ _ | .omitted
  | .useInternal _ _ _ | .useExternal _ _ _ => True
  | _ => False

mutual

/-- The second node is the first with some allowed calls exchanged, but none in fills for slots. -/
inductive Exchange.Exchanged (X : Exchange) (k : Bool) : Node Compiled → Node Compiled → Prop where
  | call {name : Bytes} {e : Compiled} {slots : List (Bytes × Node Compiled)} {extend : Bool} :
      k = true → X.calls name e → Exchanged X k (.useInternal name slots extend) (.useExternal e slots extend)
  | leaf {n : Node Compiled} : IsLeaf n → Exchanged X k n n
  | sequence {ns ns' : List (Node Compiled)} : AllExchanged X k ns ns' → Exchanged X k (.sequence ns) (.sequence ns')
  | element {name : Bytes} {start body stop start' body' stop' : Node Compiled} :
      Exchanged X k start start' → Exchanged X k body body' → Exchanged X k stop stop' →
      Exchanged X k (.element name start body stop) (.element name start' body' stop')
  | startTag {lead name tail : Bytes} {ns ns' : List (Node Compiled)} : AllExchanged X k ns ns' →
      Exchanged X k (.startTag lead name ns tail) (.startTag lead name ns' tail)
  | condition {test : Operand Compiled} {yes no yes' no' : Node Compiled} :
      Exchanged X k yes yes' → Exchanged X k no no' → Exchanged X k (.condition test yes no) (.condition test yes' no')
  | loop {names : List Bytes} {e : Compiled} {body body' : Node Compiled} {whitespace : Bytes} :
      Exchanged X k body body' → Exchanged X k (.loop names e body whitespace) (.loop names e body' whitespace)
  | define {assignments : List (Assignment Compiled)} {body body' : Node Compiled} :
      Exchanged X k body body' → Exchanged X k (.define assignments body) (.define assignments body')
  | cache {exprs : List Compiled} {body body' : Node Compiled} :
      Exchanged X k body body' → Exchanged X k (.cache exprs body) (.cache exprs body')
  | translate {msgid : Bytes} {body body' : Node Compiled} :
      Exchanged X k body body' → Exchanged X k (.translate msgid body) (.translate msgid body')
  | name {name : Bytes} {body body' : Node Compiled} :
      Exchanged X k body body' → Exchanged X k (.name name body) (.name name body')
  | domain {domain : Bytes} {body body' : Node Compiled} :
      Exchanged X k body body' → Exchanged X k (.domain domain body) (.domain domain body')
  | onError {body fallback body' fallback' : Node Compiled} :
      Exchanged X k body body' → Exchanged X k fallback fallback' →
      Exchanged X k (.onError body fallback) (.onError body' fallback')
  | macroDef {name : Bytes} {body body' : Node Compiled} :
      Exchanged X k body body' → Exchanged X k (.macroDef name body) (.macroDef name body')
  | fillSlot {name : Bytes} {body body' : Node Compiled} :
      Exchanged X k body body' → Exchanged X k (.fillSlot name body) (.fillSlot name body')
  | defineSlot {name : Bytes} {body body' : Node Compiled} :
      Exchanged X k body body' → Exchanged X k (.defineSlot name body) (.defineSlot name body')
  | switch {id : Int} {e : Compiled} {body body' : Node Compiled} :
      Exchanged X k body body' → Exchanged X k (.switch id e body) (.switch id e body')
  | case {id : Int} {e : Option Compiled} {body body' : Node Compiled} :
      Exchanged X k body body' → Exchanged X k (.case id e body) (.case id e body')
  | module {filename : Bytes} {body body' : Node Compiled} :
      Exchanged X k body body' → Exchanged X k (.module filename body) (.module filename body')

/-- The nodes of the second list are those of the first one with some calls exchanged. -/
inductive Exchange.AllExchanged (X : Exchange) (k : Bool) : List (Node Compiled) → List (Node Compiled) → Prop where
  | nil : AllExchanged X k [] []
  | cons {n n' : Node Compiled} {ns ns' : List (Node Compiled)} :
      Exchanged X k n n' → AllExchanged X k ns ns' → AllExchanged X k (n :: ns) (n' :: ns')

end

namespace Exchange

variable {X : Exchange} {k : Bool}

mutual

theorem Exchanged.same : ∀ n : Node Compiled, X.Exchanged false n n
  | .absent | .text _ | .interpolation _ _ | .attr _ | .attributeMap _ _ | .content _ _ _ | .omitted
  | .useInternal _ _ _ | .useExternal _ _ _ => .leaf trivial
  | .sequence ns => .sequence (AllExchanged.same ns)
  | .element _ start body stop => .element (Exchanged.same start) (Exchanged.same body) (Exchanged.same stop)
  | .startTag _ _ ns _ => .startTag (AllExchanged.same ns)
  | .condition _ yes no => .condition (Exchanged.same yes) (Exchanged.same no)
  | .loop _ _ body _ => .loop (Exchanged.same body)
  | .define _ body => .define (Exchanged.same body)
  | .cache _ body => .cache (Exchanged.same body)
  | .translate _ body => .translate (Exchanged.same body)
  | .name _ body => .name (Exchanged.same body)
  | .domain _ body => .domain (Exchanged.same body)
  | .onError body fallback => .onError (Exchanged.same body) (Exchanged.same fallback)
  | .macroDef _ body => .macroDef (Exchanged.same body)
  | .fillSlot _ body => .fillSlot (Exchanged.same body)
  | .defineSlot _ body => .defineSlot (Exchanged.same body)
  | .switch _ _ body => .switch (Exchanged.same body)
  | .case _ _ body => .case (Exchanged.same body)
  | .module _ body => .module (Exchanged.same body)

theorem AllExchanged.same : ∀ ns : List (Node Compiled), X.AllExchanged false ns ns
  | [] => .nil
  | n :: ns => .cons (Exchanged.same n) (AllExchanged.same ns)

end

/-- Expressions that may be called find the macro of the program where the scope has its macros. -/
def Sound (X : Exchange) : Prop :=
  ∀ name e, X.calls name e → ∀ (vars : Vars) (w : World),
    vars.get? macrosName = some (X.program.macroTable X.number) →
      (e.evaluator.eval vars).run w = (.ok (.namedMacro X.number X.program.filename name), w)

/-- Where the scope has the macros of the program, an expression that may be called gives the macro and leaves its trace
only in the journal. -/
theorem run_evaluate (hX : X.Sound) (he : X.calls name e) {st st' : State}
    (h : (X.company true).Related st st') (frame : Frame) :
    ∃ st'', (evaluate frame e).run st' = some (.ok (.namedMacro X.number X.program.filename name), st'') ∧
      (X.company true).Related st st'' := by
  have hst := (related_iff.1 h).1
  obtain @⟨_, _, events, views, activations, ⟨rfl, hprogram⟩, ⟨hpinned, hremote⟩, hmemory, hforgotten⟩ := h
  obtain rfl := hremote.eq
  have hlookup : (activations.getD frame.activation {}).cache.lookup e.id = none := by
    have hcache : (activations.getD frame.activation {}).cache = (st.activations.getD frame.activation {}).cache :=
      congrArg Prod.fst (memory_getD hmemory frame.activation)
    rw [hcache, List.getD_eq_getElem?_getD]
    cases ha : st.activations[frame.activation]? with
    | none => rfl
    | some a => exact hforgotten a (List.mem_of_getElem? ha) e.id ⟨name, e, he, rfl⟩
  have heval := hX name e he st.vars st.world (hst.macros rfl)
  have hevaluation : evaluation frame e { st with events, views, activations } =
      (.ok (.namedMacro X.number X.program.filename name), { st with
        events := .evaluated e (.ok (.namedMacro X.number X.program.filename name)) :: events
        views := ⟨frame, e, st.vars, st.assigned, st.world⟩ :: views
        activations }) := by
    simp only [evaluation, heval]
  refine ⟨(evaluation frame e { st with events, views, activations }).2, ?_, ?_⟩
  · rw [evaluate, run_activation_bind, hlookup]
    change (outcome e (evaluation frame e _).1).run (evaluation frame e _).2 = _
    rw [hevaluation]
    rfl
  · rw [hevaluation]
    exact .intro ⟨rfl, hprogram⟩ ⟨hpinned, .refl _⟩ ⟨hmemory, hforgotten⟩

theorem alike_call (hX : X.Sound) {call : Continuation} (hcall : ∀ frame n, Alike X false (call frame n) (call frame n))
    {frame : Frame} (hframe : frame.program = X.number) (he : X.calls name e)
    (slots : List (Bytes × Node Compiled)) (extend : Bool) :
    Alike X true (node call frame (.useInternal name slots extend)) (node call frame (.useExternal e slots extend)) where
  lasts := .get_bind fun st _ _ hrun => (Alike.callMacro hcall frame slots extend _ (k := true)).lasts st _ _ hrun
  mirrors st st' r s hst hrun hs := by
    rw [node, Run.run_get_bind, hframe, (related_iff.1 hst).1.world_program] at hrun
    obtain ⟨st'', heval, hst''⟩ := run_evaluate hX he hst frame
    have hcalled := (Alike.callMacro hcall frame slots extend _).mirrors _ _ _ _ hst'' hrun hs
    rw [node, Run.run_bind, heval]
    exact hcalled

/-- Where calls are exchanged, the frame is one of the program, and no node binds a reserved name. -/
def Suits (X : Exchange) (k : Bool) (frame : Frame) (nodes : List (Node Compiled)) : Prop :=
  k = true → frame.program = X.number ∧ ∀ m ∈ nodes, m.IsFree

namespace Suits

variable {frame : Frame} {nodes nodes' : List (Node Compiled)}

theorem mono (h : X.Suits k frame nodes) (hsubset : nodes' ⊆ nodes) : X.Suits k frame nodes' :=
  fun hk => (h hk).imp_right fun hfree m hm => hfree m (hsubset hm)

theorem tail (h : X.Suits k frame (n :: nodes)) : X.Suits k frame nodes :=
  h.mono (List.subset_cons_self _ _)

theorem free (h : X.Suits k frame nodes) (hn : n ∈ nodes) (hname : name ∈ n.binds) : (X.company k).Free name :=
  Exchange.free fun hk heq => (h hk).2 n hn _ (heq ▸ hname) (by decide)

end Suits

section Nodes

variable {call : Continuation}

mutual

theorem Exchanged.alike (hX : X.Sound) (hcall : ∀ frame n, Alike X false (call frame n) (call frame n))
    {n n' : Node Compiled} (frame : Frame) (hsuits : X.Suits k frame n.all) :
    X.Exchanged k n n' → Alike X k (node call frame n) (node call frame n')
  | .call hk he => by
    subst hk
    exact alike_call hX hcall (hsuits rfl).1 he _ _
  | .leaf h => by
    cases n' with
    | absent | omitted => exact .pure _
    | text s => exact .write s
    | interpolation _ parts => exact .writeParts (X.fits k frame) (Part.Paired.refl_all fun _ _ => rfl)
    | attr a => exact .renderAttribute (X.fits k frame) (.intro (.refl fun _ _ => rfl))
    | attributeMap e exclude => exact .renderAttributeMap (X.fits k frame) rfl exclude
    | content e raw translated => exact .renderContent (X.fits k frame) rfl raw translated
    | useInternal name slots extend =>
      refine .look fun st st' ⟨hw⟩ => ?_
      dsimp only
      rw [(hw.program frame.program).filename]
      exact Alike.callMacro hcall frame slots extend _
    | useExternal e slots extend =>
      refine .bind (.evaluate (X.fits k frame) rfl) fun v => ?_
      split
      · exact Alike.callMacro hcall frame slots extend v
      · exact .failAt rfl _
    | _ => exact h.elim
  | .sequence h => AllExchanged.alike hX hcall frame hsuits.tail h
  | .element hstart hbody hstop =>
    .bind (Exchanged.alike hX hcall frame (hsuits.mono fun m hm => by simp [Node.all, hm]) hstart) fun _ =>
      .bind (Exchanged.alike hX hcall frame (hsuits.mono fun m hm => by simp [Node.all, hm]) hbody) fun _ =>
        Exchanged.alike hX hcall frame (hsuits.mono fun m hm => by simp [Node.all, hm]) hstop
  | .startTag h =>
    .bind (.write _) fun _ =>
      .bind (AllExchanged.alike hX hcall frame hsuits.tail h) fun _ => .write _
  | .condition hyes hno => by
    refine .bind (.operand (X.fits k frame) (.refl fun _ _ => rfl)) fun v => .bind (.truth v) fun b => ?_
    split
    · exact Exchanged.alike hX hcall frame (hsuits.mono fun m hm => by simp [Node.all, hm]) hyes
    · exact Exchanged.alike hX hcall frame (hsuits.mono fun m hm => by simp [Node.all, hm]) hno
  | .loop hbody => by
    have halike := Exchanged.alike hX hcall frame hsuits.tail hbody
    exact .renderLoop (X.fits k frame) rfl (fun _ hname => hsuits.free List.mem_cons_self hname) _ halike
  | .define hbody => by
    have halike := Exchanged.alike hX hcall frame hsuits.tail hbody
    refine .renderDefine (X.fits k frame) (List.forall₂_same.2 fun a _ => .intro rfl) (fun a ha name hname => ?_) halike
    exact hsuits.free List.mem_cons_self (List.mem_flatMap.2 ⟨a, ha, hname⟩)
  | .cache hbody =>
    .renderCache (X.fits k frame) (List.forall₂_same.2 fun _ _ => rfl)
      (Exchanged.alike hX hcall frame hsuits.tail hbody)
  | .translate hbody =>
    .renderTranslate (X.fits k frame) _ (Exchanged.alike hX hcall frame hsuits.tail hbody)
  | .name hbody =>
    .renderName _ (Exchanged.alike hX hcall frame hsuits.tail hbody)
  | .domain hbody =>
    Exchanged.alike hX hcall { frame with domain := _ } hsuits.tail hbody
  | .onError hbody hfallback =>
    .renderOnError (Exchanged.alike hX hcall frame (hsuits.mono fun m hm => by simp [Node.all, hm]) hbody)
      (Exchanged.alike hX hcall frame (hsuits.mono fun m hm => by simp [Node.all, hm]) hfallback)
  | .macroDef hbody | .fillSlot hbody | .module hbody => by
    have halike := Exchanged.alike hX hcall frame hsuits.tail hbody
    exact halike
  | .defineSlot hbody => by
    have halike := Exchanged.alike hX hcall frame hsuits.tail hbody
    rw [node, node, renderSlot, renderSlot]
    split
    · exact Alike.renderFill hcall _
    · exact halike
  | .switch hbody =>
    .renderSwitch (X.fits k frame) _ rfl (Exchanged.alike hX hcall frame hsuits.tail hbody)
  | @Exchanged.case _ _ _ e _ _ hbody => by
    have hsame : Option.Rel (fun e e' : Compiled => e' = e) e e := by
      cases e with
      | none => exact .none
      | some e => exact .some rfl
    exact .renderCase (X.fits k frame) _ hsame
      (Exchanged.alike hX hcall frame hsuits.tail hbody)

theorem AllExchanged.alike (hX : X.Sound) (hcall : ∀ frame n, Alike X false (call frame n) (call frame n))
    {ns ns' : List (Node Compiled)} (frame : Frame) (hsuits : X.Suits k frame (Node.allOf ns)) :
    X.AllExchanged k ns ns' → Alike X k (nodeList call frame ns) (nodeList call frame ns')
  | .nil => .pure _
  | .cons h hs =>
    .bind (Exchanged.alike hX hcall frame (hsuits.mono (List.subset_append_left _ _)) h) fun _ =>
      AllExchanged.alike hX hcall frame (hsuits.mono (List.subset_append_right _ _)) hs

end

end Nodes

/-- Whatever is called is rendered alike: nothing that is rendered depends on the journal. -/
theorem alike_toDepth (hX : X.Sound) (depth : Nat) (frame : Frame) (n : Node Compiled) :
    Alike X false (toDepth depth frame n) (toDepth depth frame n) := by
  induction depth generalizing frame n with
  | zero => exact .exceeded
  | succ depth ih => exact Exchanged.alike hX ih frame (fun hk => by cases hk) (.same n)

end Exchange

/-- The expression evaluates to the member of this name of the macros that the scope has. -/
def SelectsMacro (name : Bytes) (e : Compiled) : Prop :=
  ∀ (vars : Vars) (w : World) (entries : List (MapKey × Value)) (v : Value),
    vars.get? macrosName = some (.map .text .callable entries) → Value.entry? entries (.text name) = some v →
      (e.evaluator.eval vars).run w = (.ok v, w)

theorem selectsMacro_of_fetch {source : Bytes}
    (he : e.evaluator = .term source [macrosName] (.fetch [.name macrosName, .constant (.text name)])) :
    SelectsMacro name e := by
  intro vars w entries v hvars hentry
  have hbound : [macrosName].find? (fun n => !vars.contains n) = none := by
    simp [Assoc.contains, hvars]
  have hfind : Expression.Env.find { vars } macrosName = .map .text .callable entries := by
    simp only [Expression.Env.find, Assoc.get?_nil, hvars]
    rfl
  have hfetch : Expression.fetch w false (.map .text .callable entries) (.text name) = .ok v := by
    change Expression.fetchEntry false (.map .text .callable entries) (.text name) .text .callable entries = .ok v
    simp only [Expression.fetchEntry, Expression.toKey?, hentry]
  have hvalue : (Expression.Plan.fetch [.name macrosName, .constant (.text name)]).value vars w = (.ok v, w) := by
    have hrun : ((Expression.Plan.fetch [.name macrosName, .constant (.text name)]).run { vars }).run { world := w } =
        (Expression.pushMember [.map .text .callable entries, .text name]).run { world := w } := by
      simp only [Expression.Plan.run, Expression.Plan.runAll, hfind]
      rfl
    have hpush : (Expression.pushMember [.map .text .callable entries, .text name]).run { world := w } =
        (Expression.Eval.lift (Expression.fetch w false (.map .text .callable entries) (.text name)) >>=
          Expression.Eval.push).run { world := w } := rfl
    rw [Expression.Plan.value, hrun, hpush, hfetch]
    rfl
  rw [he, Evaluator.eval]
  change Evaluator.evalPlan _ _ _ _ w = _
  simp only [Evaluator.evalPlan, hbound, hvalue]

theorem entry?_macroTable {p : Program} (h : (p.body? name).isSome) (number : Nat) :
    Value.entry? (p.macros.map fun m => (.text m.1, .namedMacro number p.filename m.1)) (.text name) =
      some (.namedMacro number p.filename name) := by
  rw [Program.body?] at h
  generalize p.macros = macros at h
  induction macros with
  | nil => simp at h
  | cons m macros ih =>
    rw [List.lookup_cons] at h
    rw [List.map_cons, Value.entry?, List.lookup_cons]
    by_cases hname : name = m.1
    · subst hname
      simp
    · have hbeq : (name == m.1) = false := by simpa using hname
      have hkey : (MapKey.text name == MapKey.text m.1) = false := by simpa using hname
      rw [hkey]
      rw [hbeq] at h
      exact ih h

namespace Exchange

/-- Calls of macros of a program for calls of expressions that evaluate to them, with numbers set aside. -/
def ofMembers (number : Nat) (program : Program) (isSetAside : Nat → Prop) : Exchange where
  number
  program
  calls name e := (program.body? name).isSome ∧ SelectsMacro name e ∧ isSetAside e.id

theorem sound_ofMembers (number : Nat) (program : Program) (isSetAside : Nat → Prop) :
    (ofMembers number program isSetAside).Sound := by
  rintro name e ⟨hname, hselects, _⟩ vars w hvars
  exact hselects vars w _ _ hvars (entry?_macroTable hname number)

theorem Exchanged.alike_toDepth {X : Exchange} (hX : X.Sound) {n' : Node Compiled} (h : X.Exchanged true n n')
    (depth : Nat) {frame : Frame} (hsuits : X.Suits true frame n.all) :
    Alike X true (toDepth depth frame n) (toDepth depth frame n') := by
  cases depth with
  | zero => exact .exceeded
  | succ depth => exact Exchanged.alike hX (Exchange.alike_toDepth hX depth) frame hsuits h

end Exchange

/-! ### Numbers of expressions -/

/-- The number is new to a run: nothing was remembered under it at the start, and no expression with it was evaluated at
the end. -/
structure IsNew (st s : State) (id : Nat) : Prop where
  forgotten : ∀ a ∈ st.activations, a.cache.lookup id = none
  unused (e : Compiled) (r : Except Failure Value) : .evaluated e r ∈ s.events → e.id ≠ id

/-- The number of the expression that an event says was evaluated. -/
def Event.evaluated? : Event → Option Nat
  | .evaluated e _ => some e.id
  | _ => none

/-- There are always new numbers, since those in use are bounded. -/
theorem exists_isNew (st s : State) : ∃ id, IsNew st s id := by
  let used := st.activations.flatMap (fun a => a.cache.map (·.1)) ++ s.events.filterMap Event.evaluated?
  have hused : used.max?.getD 0 + 1 ∉ used := fun hmem => by
    have hle := List.le_max?_getD_of_mem (k := 0) hmem
    omega
  rw [List.mem_append, not_or] at hused
  refine ⟨used.max?.getD 0 + 1, fun a ha => ?_, fun e r hevent heq => ?_⟩
  · rw [List.lookup_eq_none_iff]
    intro entry hentry
    rw [bne_iff_ne]
    intro heq
    exact hused.1 (List.mem_flatMap.2 ⟨a, ha, List.mem_map.2 ⟨entry, hentry, heq.symm⟩⟩)
  · exact hused.2 (List.mem_filterMap.2 ⟨_, hevent, congrArg some heq⟩)

/-- Calls of macros of the same template by name and calls of the expressions that evaluate to these members of
`macros`, under new numbers, agree in text and failure wherever the scope has `macros` from that template; and that is
so in all of its bodies, whatever the scope was before. -/
theorem calls_agree_in_scope {number : Nat} {p : Program} {n : Node Compiled} {st s : State} {r : Except Failure Unit}
    (hp : st.world.programs[number]? = some p) (hn : n ∈ p.main.all ∨ ∃ m ∈ p.macros, n ∈ m.2.all)
    (hcompiled : ∀ q ∈ st.world.programs, q.IsCompiled)
    (hstore : ∀ name ∈ Clause.reservedNames, st.remote.get? name = none) (depth : Nat) :
    (∀ frame : Frame, frame.program = number → frame.IsFree → st.vars.get? macrosName = some (p.macroTable number) →
      (node (toDepth depth) frame n).run st = some (r, s) →
        ∀ n', (Exchange.ofMembers number p (IsNew st s)).Exchanged true n n' →
          ∃ s', (node (toDepth depth) frame n').run st = some (r, s') ∧ Agrees s s') ∧
    ∀ bound slots, AreFree slots → (renderBody (toDepth depth) number bound n slots).run st = some (r, s) →
      ∀ n', (Exchange.ofMembers number p (IsNew st s)).Exchanged true n n' →
        ∃ s', (renderBody (toDepth depth) number bound n' slots).run st = some (r, s') ∧ Agrees s s' := by
  have hX := Exchange.sound_ofMembers number p (IsNew st s)
  have htidy : Tidy st := ⟨fun q hq => (hcompiled q hq).isFree, hstore⟩
  have hfree : n.Every Node.IsFree := by
    have hprogram := (hcompiled p (List.mem_of_getElem? hp)).isFree
    rcases hn with hn | ⟨m, hm, hn⟩
    · exact hprogram.main.of_mem hn
    · exact (hprogram.macros m hm).of_mem hn
  have hundisturbed : Tidy s → (Exchange.ofMembers number p (IsNew st s)).Undisturbed s := by
    refine fun hs => ⟨hs.store _ (by decide), fun e r hevent hnumber => ?_⟩
    obtain ⟨_, e', ⟨_, _, hnew⟩, hid⟩ := hnumber
    exact hnew.unused e r hevent hid.symm
  have hforgotten : ∀ a ∈ st.activations, ∀ id, (Exchange.ofMembers number p (IsNew st s)).IsNumber id →
      a.cache.lookup id = none := by
    rintro a ha id ⟨_, e', ⟨_, _, hnew⟩, rfl⟩
    exact hnew.forgotten a ha
  refine ⟨fun frame hframe hfills hmacros hrun n' h => ?_, fun bound slots hfills hrun n' h => ?_⟩
  · have hs := Tidied.handing.node (Tidied.toDepth depth) hfills hfree _ _ _ hrun htidy
    have halike := Exchange.Exchanged.alike hX (Exchange.alike_toDepth hX depth) frame (fun _ => ⟨hframe, hfree⟩) h
    exact Alike.agrees halike ⟨hp, hforgotten, fun _ => hmacros⟩ hrun (hundisturbed hs)
  · have hs := Tidied.handing.renderBody (Tidied.toDepth depth) (fun _ => ⟨Frame.isFree_iff.2 hfills, hfree⟩) hrun htidy
    have halike := Alike.renderBody number (fun _ => rfl)
      (fun frame hframe => h.alike_toDepth hX depth fun _ => ⟨hframe, hfree⟩) bound
      (fun frame => Exchange.Lasts.lasting.keeps_toDepth depth frame n) slots
    exact Alike.agrees halike (.anywhere hp hforgotten) hrun (hundisturbed hs)

/-- The node is a call of the macro of this name, without fills. -/
def isCallOf (name : Bytes) : Node Compiled → Bool
  | .useInternal called [] false => called == name
  | _ => false

theorem eq_useInternal_of_isCallOf (h : isCallOf name n = true) : n = .useInternal name [] false := by
  unfold isCallOf at h
  split at h
  · rw [beq_iff_eq.1 h]
  · cases h

/-- What comes out of a run that is done without a failure. -/
def outputOf (result : Option (Except Failure Unit × State)) : Option Bytes :=
  result.bind fun q => q.1.toOption.map fun _ => q.2.out.text

theorem exists_of_outputOf {result : Option (Except Failure Unit × State)} {text : Bytes}
    (h : outputOf result = some text) : ∃ s, result = some (.ok (), s) ∧ s.out.text = text := by
  obtain ⟨⟨r, s⟩, rfl, hr⟩ := Option.bind_eq_some_iff.1 h
  obtain ⟨⟨⟩, hok, htext⟩ := Option.map_eq_some_iff.1 hr
  cases r with
  | error f => cases hok
  | ok _ => exact ⟨s, rfl, htext⟩

/-- A call in the scope of its template, and a body that is just this call. -/
theorem calls_agree_in_scope_of_template :
    let name := utf8 "n"
    let source := utf8 "<i metal:define-macro=\"n\">A</i><u metal:use-macro=\"macros.n\"/>"
    ∃ p : Program, compileTemplate (Expression.Registry.initial (utf8 "expr") []) [] source 0 = .ok p ∧
      .useInternal name [] false ∈ p.main.all ∧
      (∃ e s s', SelectsMacro name e ∧
        (node (toDepth 1) default (.useInternal name [] false)).run (bodyStart 0 { world := { programs := [p] } }) =
          some (.ok (), s) ∧
        (node (toDepth 1) default (.useExternal e [] false)).run (bodyStart 0 { world := { programs := [p] } }) =
          some (.ok (), s') ∧ Agrees s s' ∧ s.out.text = utf8 "<i>A</i>") ∧
      ∃ e s s', SelectsMacro name e ∧
        (renderBody (toDepth 2) 0 0 (.useInternal name [] false) []).run { world := { programs := [p] } } =
          some (.ok (), s) ∧
        (renderBody (toDepth 2) 0 0 (.useExternal e [] false) []).run { world := { programs := [p] } } =
          some (.ok (), s') ∧ Agrees s s' ∧ s.out.text = utf8 "<i>A</i>" := by
  intro name source
  have hruns : ((compileTemplate (Expression.Registry.initial (utf8 "expr") []) [] source 0).toOption.any fun p =>
      (p.body? name).isSome && p.main.all.any (isCallOf name) &&
      (outputOf ((node (toDepth 1) default (.useInternal name [] false)).run
        (bodyStart 0 { world := { programs := [p] } })) == some (utf8 "<i>A</i>") &&
      outputOf ((renderBody (toDepth 2) 0 0 (.useInternal name [] false) []).run { world := { programs := [p] } }) ==
        some (utf8 "<i>A</i>"))) = true := by decide +kernel
  obtain ⟨p, hp, hruns⟩ := (Option.any_eq_true _ _).1 hruns
  simp only [Bool.and_eq_true, beq_iff_eq] at hruns
  obtain ⟨⟨hbody, hcall⟩, hnode, hwhole⟩ := hruns
  have hcompile := eq_ok_of_toOption hp
  have hcompiled : ∀ q ∈ [p], q.IsCompiled := List.forall_mem_singleton.2 ⟨_, _, _, _, hcompile⟩
  obtain ⟨n, hn, hn'⟩ := List.any_eq_true.1 hcall
  obtain rfl := eq_useInternal_of_isCallOf hn'
  have hexchanged : ∀ st s : State, ∃ e, SelectsMacro name e ∧
      (Exchange.ofMembers 0 p (IsNew st s)).Exchanged true (.useInternal name [] false) (.useExternal e [] false) := by
    intro st s
    obtain ⟨id, hid⟩ := exists_isNew st s
    let e : Compiled := { (default : Compiled) with
      id, evaluator := .term (utf8 "macros.n") [macrosName] (.fetch [.name macrosName, .constant (.text name)]) }
    have hselects : SelectsMacro name e := selectsMacro_of_fetch rfl
    exact ⟨e, hselects, .call rfl ⟨hbody, hselects, hid⟩⟩
  refine ⟨p, hcompile, hn, ?_, ?_⟩
  · obtain ⟨s, hrun, htext⟩ := exists_of_outputOf hnode
    obtain ⟨e, hselects, h⟩ := hexchanged (bodyStart 0 { world := { programs := [p] } }) s
    obtain ⟨s', hrun', hagrees⟩ := (calls_agree_in_scope (p := p) rfl (.inl hn) hcompiled (fun _ _ => rfl) 1).1
      default rfl (Frame.isFree_iff.2 areFree_nil) rfl hrun _ h
    exact ⟨e, s, s', hselects, hrun, hrun', hagrees, htext⟩
  · obtain ⟨s, hrun, htext⟩ := exists_of_outputOf hwhole
    obtain ⟨e, hselects, h⟩ := hexchanged { world := { programs := [p] } } s
    obtain ⟨s', hrun', hagrees⟩ := (calls_agree_in_scope (p := p) rfl (.inl hn) hcompiled (fun _ _ => rfl) 2).2
      0 [] areFree_nil hrun _ h
    exact ⟨e, s, s', hselects, hrun, hrun', hagrees, htext⟩

/-- In a fill that another template renders, the scope has the macros of that template. -/
theorem calls_differ_in_fill :
    let name := utf8 "n"
    let slot := utf8 "s"
    let p : Program := { (default : Program) with macros := [(name, .text (utf8 "own"))] }
    let q : Program :=
      { (default : Program) with main := .defineSlot slot .absent, macros := [(name, .text (utf8 "other"))] }
    let e : Compiled :=
      { (default : Compiled) with
        evaluator := .term (utf8 "macros.n") [macrosName] (.fetch [.name macrosName, .constant (.text name)]) }
    let load : Compiled := { (default : Compiled) with id := 1, evaluator := .constant (.program 1 0) }
    let st : State := { world := { programs := [p, q] } }
    let output (fill : Node Compiled) : Option Bytes :=
      ((renderBody (toDepth 4) 0 0 (.useExternal load [(slot, fill)] false) []).run st).map (·.2.out.text)
    SelectsMacro name e ∧ (p.body? name).isSome ∧
      output (.useInternal name [] false) = some (utf8 "own") ∧
      output (.useExternal e [] false) = some (utf8 "other") := by
  refine ⟨selectsMacro_of_fetch rfl, rfl, ?_, ?_⟩
  · decide +kernel
  · decide +kernel

end PageTemplate.Render
