import PageTemplate.Proofs.AttributeNames
import PageTemplate.Proofs.Numbering

/-!
A mapping of one entry in the place of a named attribute. The two are written by different routes, and come to the same
text unless the name has a place in the start tag for another reason, or the value is the default marker.
-/

namespace PageTemplate

open Markup (RawAttribute Token)
open Expression (Registry)

variable {attributes : List (Node Expr)} {m : Module}

/-- The names differ, in whichever way letter case is left out of account. -/
def Text.Apart (s t : Bytes) : Prop := equalFold s t = false ∧ lower s ≠ lower t

instance (s t : Bytes) : Decidable (Text.Apart s t) := inferInstanceAs (Decidable (_ ∧ _))

theorem Text.equalFold_comm (s t : Bytes) : equalFold s t = equalFold t s := by
  rw [equalFold, equalFold, Bool.beq_comm]

namespace Directives

/-- There is a clause for attributes, and this is all that it sets. -/
def SetsOnly (ds : Directives) (entry : Clause.AttributeEntry) : Prop :=
  ∃ t, ds.clause? .attributes = some t ∧ Clause.attributes t = .ok [entry]

/-- The names that are to be translated, each with the message that it is translated from. -/
def translations (ds : Directives) : Except Failure (List (Bytes × Bytes)) :=
  match ds.clause? .translatedAttributes with
  | some t => Clause.translatedAttributes t
  | none => .ok []

/-- The name is none of the written ones and none of those to be translated. -/
structure LeavesFree (ds : Directives) (written : List RawAttribute) (name : Bytes) : Prop where
  written : ∀ a ∈ written, Text.Apart a.name.value name
  translated : ∀ entries, ds.translations = .ok entries → ∀ e ∈ entries, Text.Apart e.1 name

end Directives

/-- The attribute that a directive sets to the value of an expression. -/
def DynamicAttribute.named {ε : Type} (name : Bytes) (e : ε) : DynamicAttribute ε :=
  { name, value := .expr e, boolean := Markup.isBooleanAttribute name }

/-- A named attribute stands behind the written ones and before those only translated, one from a mapping behind all. -/
structure Placed {ε : Type} (Of : Token → ε → Prop) (ds : Directives) (written : List RawAttribute)
    (attributes : List (Node ε)) : Prop where
  named {name : Bytes} {x : Token} : ds.SetsOnly ⟨some name, x⟩ → ds.LeavesFree written name →
    ∃ before after e, Of x e ∧ attributes = before ++ .attr (.named name e) :: after ∧
      before.length = written.length ∧ ∀ n ∈ after, ∃ d, n = .attr d ∧ d.translate = true
  mapped {x : Token} : ds.SetsOnly ⟨none, x⟩ →
    ∃ others e exclude, Of x e ∧ attributes = others ++ [.attributeMap e exclude] ∧
      ∀ name, ds.LeavesFree written name → Text.lower name ∉ exclude

namespace Builder

variable {slots : List AttributeSlot}
variable {after : List AttributeSlot} {entries : List (Bytes × Bytes)}

theorem updateSlot?_append (name : Bytes) (f : AttributeSlot → AttributeSlot) (before after : List AttributeSlot) :
    updateSlot? name f (before ++ after) =
      ((updateSlot? name f before).map (· ++ after)).or ((updateSlot? name f after).map (before ++ ·)) := by
  induction before with
  | nil => simp [updateSlot?]
  | cons s before ih =>
    rw [List.cons_append, updateSlot?, updateSlot?]
    split
    · rfl
    · rw [ih]
      cases updateSlot? name f before <;> cases updateSlot? name f after <;> rfl

theorem addDynamic_of_free {name : Bytes} (e : Expr) (h : ∀ s ∈ slots, Text.equalFold s.name name = false) :
    addDynamic slots name e = slots ++ [{ name, node := .attr (.named name e) }] := by
  unfold addDynamic
  dsimp only
  rw [updateSlot?_eq_none_iff.2 h]
  rfl

/-- An attribute that only the translation names. -/
def AttributeSlot.OnlyTranslated (s : AttributeSlot) : Prop := ∃ d, s.node = .attr d ∧ d.translate = true

theorem exists_updateSlot?_insert {slot new : AttributeSlot} {name : Bytes} {f : AttributeSlot → AttributeSlot}
    {P : AttributeSlot → Prop} (hslot : Text.equalFold slot.name name = false) (hf : ∀ s, P s → P (f s)) (hnew : P new)
    (before : List AttributeSlot) (hafter : ∀ s ∈ after, P s) :
    ∃ before' after',
      (updateSlot? name f (before ++ slot :: after)).getD (before ++ slot :: after ++ [new]) =
        before' ++ slot :: after' ∧
      before'.length = before.length ∧ ∀ s ∈ after', P s := by
  have hskip : updateSlot? name f (slot :: after) = (updateSlot? name f after).map (slot :: ·) := by
    rw [updateSlot?, if_neg (by simp [hslot])]
  rw [updateSlot?_append, hskip]
  cases hbefore : updateSlot? name f before with
  | some before' =>
    obtain ⟨_, s, _, rfl, rfl, _⟩ := exists_of_updateSlot? hbefore
    exact ⟨_, after, rfl, by simp, hafter⟩
  | none =>
    cases hupdate : updateSlot? name f after with
    | some after' =>
      obtain ⟨_, s, _, rfl, rfl, _⟩ := exists_of_updateSlot? hupdate
      refine ⟨before, _, rfl, rfl, ?_⟩
      simp only [List.forall_mem_append, List.forall_mem_cons] at hafter ⊢
      exact ⟨hafter.1, hf s hafter.2.1, hafter.2.2⟩
    | none =>
      refine ⟨before, after ++ [new], by simp, rfl, ?_⟩
      simp only [List.forall_mem_append, List.forall_mem_singleton]
      exact ⟨hafter, hnew⟩

theorem exists_foldl_addTranslated_insert (slot : AttributeSlot)
    (hslot : ∀ e ∈ entries, Text.equalFold slot.name e.1 = false) (before : List AttributeSlot)
    (hafter : ∀ s ∈ after, s.OnlyTranslated) :
    ∃ before' after',
      entries.foldl (fun ss e => addTranslated ss e.1 e.2) (before ++ slot :: after) = before' ++ slot :: after' ∧
      before'.length = before.length ∧ ∀ s ∈ after', s.OnlyTranslated := by
  induction entries generalizing before after with
  | nil => exact ⟨before, after, rfl, rfl, hafter⟩
  | cons entry entries ih =>
    obtain ⟨hentry, hentries⟩ := List.forall_mem_cons.1 hslot
    have hstep : ∃ before₁ after₁,
        addTranslated (before ++ slot :: after) entry.1 entry.2 = before₁ ++ slot :: after₁ ∧
        before₁.length = before.length ∧ ∀ s ∈ after₁, s.OnlyTranslated := by
      refine exists_updateSlot?_insert hentry (fun s hs => ?_) ⟨_, rfl, rfl⟩ before hafter
      obtain ⟨slotName, raw, node⟩ := s
      obtain ⟨d, rfl, _⟩ := hs
      exact ⟨_, rfl, rfl⟩
    obtain ⟨before₁, after₁, hslots, hlength, hafter₁⟩ := hstep
    rw [List.foldl_cons, hslots, ← hlength]
    exact ih hentries before₁ hafter₁

theorem forall_name_foldl_addTranslated {P : Bytes → Prop}
    (hentries : ∀ e ∈ entries, P e.1) (hslots : ∀ s ∈ slots, P s.name) :
    ∀ s ∈ entries.foldl (fun ss e => addTranslated ss e.1 e.2) slots, P s.name := by
  induction entries generalizing slots with
  | nil => exact hslots
  | cons entry entries ih =>
    obtain ⟨hentry, hentries⟩ := List.forall_mem_cons.1 hentries
    refine ih hentries (forall_mem_updateSlot?_getD (fun s _ _ hs => ?_) hentry hslots)
    dsimp only
    split <;> exact hs

/-! ### The attributes of an element -/

variable {r : Registry} {ds : Directives} {written : List RawAttribute} {name : Bytes} {b b' : State}

theorem token_of_run_expression {x : Markup.Token} {e : Expr} (h : (expression r x).run b = .ok (e, b')) :
    e.token = x := by
  unfold expression at h
  split at h
  · cases h
  · cases h
    rfl

theorem exists_run_dynamicSlots {entry : Clause.AttributeEntry} {result : List AttributeSlot × List Expr}
    (hsets : ds.SetsOnly entry) (h : (dynamicSlots r ds slots).run b = .ok (result, b')) :
    ∃ e, e.token = entry.expr ∧
      result = (entry.name.elim slots fun name => addDynamic slots name e, entry.name.elim [e] fun _ => []) := by
  obtain ⟨t, hclause, hentries⟩ := hsets
  unfold dynamicSlots at h
  rw [hclause] at h
  dsimp only at h
  rw [hentries] at h
  change (placeEntries r [entry] slots []).run b = _ at h
  obtain ⟨e, b₁, he, h⟩ := run_bind_eq_ok.1 h
  refine ⟨e, token_of_run_expression he, ?_⟩
  split at h
  · next hname =>
    cases h
    rw [hname]
    rfl
  · next hname =>
    cases h
    rw [hname]
    rfl

theorem exists_run_translatedSlots {translated : List AttributeSlot}
    (h : (translatedSlots ds slots).run b = .ok (translated, b')) :
    ∃ entries, ds.translations = .ok entries ∧
      translated = entries.foldl (fun ss e => addTranslated ss e.1 e.2) slots := by
  rw [translatedSlots] at h
  rw [Directives.translations]
  cases hclause : ds.clause? .translatedAttributes with
  | none =>
    rw [hclause] at h
    cases h
    exact ⟨[], rfl, rfl⟩
  | some t =>
    rw [hclause] at h
    dsimp only at h
    cases hentries : Clause.translatedAttributes t with
    | error f =>
      rw [hentries] at h
      cases h
    | ok entries =>
      rw [hentries] at h
      cases h
      exact ⟨entries, hentries, rfl⟩

theorem placed_of_run_attributes (h : (Builder.attributes r ds written).run b = .ok (attributes, b')) :
    Placed (fun x e => e.token = x) ds written attributes := by
  obtain ⟨slots, b₁, hslots, h⟩ := run_bind_eq_ok.1 h
  obtain ⟨⟨dynamic, maps⟩, b₂, hdynamic, h⟩ := run_bind_eq_ok.1 h
  obtain ⟨translated, b₃, htranslated, h⟩ := run_bind_eq_ok.1 h
  cases h
  obtain ⟨entries, htranslations, rfl⟩ := exists_run_translatedSlots htranslated
  have hnames : List.Forall₂ (fun a s => s.name = a.name.value) written slots := by
    have hgives : Gives (List.Forall₂ (fun a s => s.name = a.name.value) written) (written.mapM fun a =>
        return { name := a.name.value, raw := some a, node := ← writtenAttribute r a : AttributeSlot }) :=
      .mapM_forall₂ fun a _ => .bind (.any _) fun _ _ => .pure rfl
    exact ((hgives b fun _ _ _ _ => trivial).1 _ hslots).1
  have hslotsFree : ∀ {name}, ds.LeavesFree written name → ∀ s ∈ slots, Text.Apart s.name name := by
    intro name hfree s hs
    obtain ⟨a, ha, hname⟩ := exists_of_forall₂ hnames hs
    exact hname ▸ hfree.written a ha
  refine ⟨fun hsets hfree => ?_, fun hsets => ?_⟩
  · obtain ⟨e, he, heq⟩ := exists_run_dynamicSlots hsets hdynamic
    obtain ⟨rfl, rfl⟩ := Prod.mk.inj (heq.trans (congrArg (·, []) (addDynamic_of_free e fun s hs =>
      (hslotsFree hfree s hs).1)))
    obtain ⟨before, after, hwith, hlength, hafter⟩ :=
      exists_foldl_addTranslated_insert { name := _, node := .attr (.named _ e) }
        (fun e he => (Text.equalFold_comm _ _).trans (hfree.translated entries htranslations e he).1) slots
        (List.forall_mem_nil _)
    refine ⟨before.map (·.node), after.map (·.node), e, he, ?_, ?_, ?_⟩
    · rw [hwith]
      simp
    · rw [List.length_map, hlength, hnames.length_eq]
    · intro n hn
      obtain ⟨s, hs, rfl⟩ := List.mem_map.1 hn
      exact hafter s hs
  · obtain ⟨e, he, heq⟩ := exists_run_dynamicSlots hsets hdynamic
    obtain ⟨hkept, rfl⟩ := Prod.mk.inj heq
    refine ⟨_, e, _, he, rfl, fun name hfree hmem => ?_⟩
    obtain ⟨s, hs, hlower⟩ := List.mem_map.1 hmem
    rw [hkept] at hs
    have hapart := forall_name_foldl_addTranslated (P := (Text.Apart · name)) (hfree.translated entries htranslations)
      (hslotsFree hfree) s hs
    exact hapart.2 hlower

end Builder

theorem Placed.map {r : Registry} {ds : Directives} {written : List RawAttribute}
    (h : Placed (fun x e => e.token = x) ds written attributes)
    (hreads : ∀ n ∈ attributes, ∀ e ∈ n.reads, m.compileExpr r e = .ok (m.compiled r e)) :
    Placed (fun x c => r.compile x.value = .ok c.evaluator) ds written (attributes.map (Node.map (m.compiled r))) := by
  refine ⟨fun hsets hfree => ?_, fun hsets => ?_⟩
  · obtain ⟨before, after, e, rfl, rfl, hlength, hafter⟩ := h.named hsets hfree
    have hcompile := hreads _ (List.mem_append_right _ List.mem_cons_self) e List.mem_cons_self
    refine ⟨before.map (Node.map (m.compiled r)), after.map (Node.map (m.compiled r)), _,
      (Module.compile_eq_ok hcompile).1, ?_, ?_, ?_⟩
    · rw [List.map_append, List.map_cons]
      rfl
    · rw [List.length_map, hlength]
    · rw [List.forall_mem_map]
      intro n hn
      obtain ⟨d, rfl, htranslate⟩ := hafter n hn
      exact ⟨_, rfl, htranslate⟩
  · obtain ⟨others, e, exclude, rfl, rfl, hexclude⟩ := h.mapped hsets
    have hcompile := hreads _ (List.mem_append_right _ List.mem_cons_self) e List.mem_cons_self
    refine ⟨others.map (Node.map (m.compiled r)), _, exclude, (Module.compile_eq_ok hcompile).1, ?_, hexclude⟩
    rw [List.map_append]
    rfl

theorem placed_of_builtFrom {r : Registry} {ds : Directives} {written : List RawAttribute}
    {built : List (Node Expr)} (h : BuiltFrom r ds written built)
    (hreads : ∀ n ∈ built, ∀ e ∈ n.reads, m.compileExpr r e = .ok (m.compiled r e))
    (hset : built.map (Node.map (m.compiled r)) ≠ written.map fun a => .text a.text) :
    Placed (fun x c => r.compile x.value = .ok c.evaluator) ds written (built.map (Node.map (m.compiled r))) := by
  rcases h with ⟨st, st', hrun⟩ | ⟨_, rfl⟩
  · exact (Builder.placed_of_run_attributes hrun).map hreads
  · exact absurd (by simp [Node.map]) hset

/-! ### Rendering -/

namespace Render

open Run

variable {e : Compiled} {exclude : List Bytes}

def writesByPresence (frame : Frame) (st : State) : Bool :=
  (st.world.settingsOf (st.world.program frame.program).settings).booleanAttributes

/-- The text of an attribute with a value: none if the value leaves it out, its own name if it is written by presence.
-/
def attributeText (heap : Heap) (byPresence : Bool) (name : Bytes) (v : Value) : Bytes :=
  if dropsAttribute v then []
  else if byPresence && Markup.isBooleanAttribute name then
    if (heap.resolve v).truthy then (Markup.entrySpelling name name).text else []
  else (Markup.entrySpelling name ((heap.resolve v).toAttribute [Byte.doubleQuote])).text

def State.writing (st : State) (w : Bytes) : State := { st with out := st.out.append w }

variable {frame : Frame} {name : Bytes} {v : Value} {st st' : State}

theorem run_bind_of_ok {α β : Type} {x : Run α} {a : α} (h : x.run st = some (.ok a, st')) (f : α → Run β) :
    (x >>= f).run st = (f a).run st' := by
  rw [run_bind, h]
  rfl

theorem run_writeAttribute_named (e : Compiled) (v : Value) (st : State) :
    (writeAttribute frame (.named name e) v).run st = some (.ok (), st.writing
      (Markup.entrySpelling name ((st.world.heap.resolve v).toAttribute [Byte.doubleQuote])).text) := by
  have htext := DynamicAttribute.text_spelled (.named name e)
    ((st.world.heap.resolve v).toAttribute [Byte.doubleQuote])
  change _ = some (Except.ok (), st.writing ((DynamicAttribute.named name e).spelled _).text)
  rw [htext]
  rfl

/-- What a named attribute comes to, unless it is the default marker. -/
theorem run_renderAttribute_named (h : (evaluate frame e).run st = some (.ok v, st'))
    (hdefault : v.isDefault = false) :
    (renderAttribute frame (.named name e)).run st =
      some (.ok (), st'.writing (attributeText st'.world.heap (writesByPresence frame st') name v)) := by
  have hvalue : (attributeValue frame (.named name e)).run st = some (.ok v, st') := h
  rw [renderAttribute, run_bind_of_ok hvalue, hdefault, if_neg Bool.false_ne_true, attributeText]
  split
  · rfl
  · have hpresence : (booleanAttributes frame).run st' = some (.ok (writesByPresence frame st'), st') := rfl
    have hboolean : ((DynamicAttribute.named name e).boolean && writesByPresence frame st') =
        (writesByPresence frame st' && Markup.isBooleanAttribute name) := Bool.and_comm _ _
    rw [run_bind_of_ok hpresence, hboolean]
    by_cases hb : (writesByPresence frame st' && Markup.isBooleanAttribute name) = true
    · rw [if_pos hb, if_pos hb, run_truth_bind]
      split
      · rw [run_writeAttribute_named, (Value.shows_markup _).toAttribute, if_pos rfl]
        rfl
      · rfl
    · rw [if_neg hb, if_neg hb]
      exact run_writeAttribute_named e v st'

theorem run_writeEntries_singleton (hname : Text.lower name ∉ exclude) (booleans : Bool) (v : Value) (st : State) :
    (writeEntries exclude booleans [(name, v)]).run st =
      some (.ok (), st.writing (attributeText st.world.heap booleans name v)) := by
  have hshown : exclude.contains (Text.lower name) = false := by simpa using hname
  unfold writeEntries attributeText
  rw [Markup.text_entrySpelling, Markup.text_entrySpelling]
  dsimp only
  rw [hshown, Bool.false_or]
  by_cases hdrops : dropsAttribute v = true
  · rw [if_neg (by simp [hdrops]), if_pos hdrops]
    rfl
  · rw [if_pos (by simp [hdrops]), if_neg hdrops]
    by_cases hb : (booleans && Markup.isBooleanAttribute name) = true
    · rw [if_pos hb, if_pos hb, run_truth_bind]
      split <;> rfl
    · rw [if_neg hb, if_neg hb]
      rfl

theorem run_renderAttributeMap_singleton {m : Value}
    (h : (evaluate frame e).run st = some (.ok m, st')) (hentries : mapEntries st'.world m = .ok [(name, v)])
    (hname : Text.lower name ∉ exclude) :
    (renderAttributeMap frame e exclude).run st =
      some (.ok (), st'.writing (attributeText st'.world.heap (writesByPresence frame st') name v)) := by
  rw [renderAttributeMap, run_bind_of_ok h, run_get_bind, hentries]
  exact run_writeEntries_singleton hname (writesByPresence frame st') v st'

/-- Values are the same in two states, and boolean attributes are written in the same way. -/
structure WritesAlike (frame : Frame) (st : State) (frame' : Frame) (st' : State) : Prop where
  heap : st'.world.heap = st.world.heap
  presence : writesByPresence frame' st' = writesByPresence frame st

/-- An attribute set by its name, and one of another element that comes from a mapping with this name as its only key,
are written alike if they have the same value other than the default marker, and the name is neither written nor
translated in these elements. -/
theorem mapped_attribute_written_as_named {r : Registry} {filename source filename' source' : Bytes}
    {settings settings' : Nat} {p p' : Program} (hp : compileTemplate r filename source settings = .ok p)
    (hp' : compileTemplate r filename' source' settings' = .ok p') {lead tag tail lead' tag' tail' : Bytes}
    {attributes attributes' : List (Node Compiled)}
    (hn : .startTag lead tag attributes tail ∈ p.main.all ∨
      ∃ m ∈ p.macros, .startTag lead tag attributes tail ∈ m.2.all)
    (hn' : .startTag lead' tag' attributes' tail' ∈ p'.main.all ∨
      ∃ m ∈ p'.macros, .startTag lead' tag' attributes' tail' ∈ m.2.all) :
    ∃ ds written ds' written',
      Directives.Make r source filename lead tag attributes tail ds written ∧
      Directives.Make r source' filename' lead' tag' attributes' tail' ds' written' ∧
      ((attributes ≠ written.map fun a => .text a.text) → (attributes' ≠ written'.map fun a => .text a.text) →
        ∀ name x x', ds.SetsOnly ⟨some name, x⟩ → ds'.SetsOnly ⟨none, x'⟩ →
          ds.LeavesFree written name → ds'.LeavesFree written' name →
          ∃ before after others c c' exclude,
            r.compile x.value = .ok c.evaluator ∧ r.compile x'.value = .ok c'.evaluator ∧
            attributes = before ++ .attr (.named name c) :: after ∧ before.length = written.length ∧
            (∀ n ∈ after, ∃ d, n = .attr d ∧ d.translate = true) ∧
            attributes' = others ++ [.attributeMap c' exclude] ∧
            ∀ (call : Continuation) (frame frame' : Frame) (st₁ st₁' st₂ st₂' : State) (v m : Value),
              (evaluate frame c).run st₁ = some (.ok v, st₁') → (evaluate frame' c').run st₂ = some (.ok m, st₂') →
              mapEntries st₂'.world m = .ok [(name, v)] → v.isDefault = false → WritesAlike frame st₁' frame' st₂' →
              ∃ w, w = attributeText st₁'.world.heap (writesByPresence frame st₁') name v ∧
                (node call frame (.attr (.named name c))).run st₁ = some (.ok (), st₁'.writing w) ∧
                (node call frame' (.attributeMap c' exclude)).run st₂ = some (.ok (), st₂'.writing w)) := by
  obtain ⟨ds, written, hof, m, _, hbuilt, rfl, hcompile⟩ := exists_element_of_startTag hp hn
  obtain ⟨ds', written', hof', m', _, hbuilt', rfl, hcompile'⟩ := exists_element_of_startTag hp' hn'
  refine ⟨ds, written, ds', written', hbuilt.make hof m, hbuilt'.make hof' m',
    fun hset hset' name x x' hnamed hmapped hfree hfree' => ?_⟩
  obtain ⟨before, after, c, hc, hattributes, hlength, hafter⟩ :=
    (placed_of_builtFrom hbuilt hcompile hset).named hnamed hfree
  obtain ⟨others, c', exclude, hc', hattributes', hexclude⟩ :=
    (placed_of_builtFrom hbuilt' hcompile' hset').mapped hmapped
  refine ⟨before, after, others, c, c', exclude, hc, hc', hattributes, hlength, hafter, hattributes', ?_⟩
  intro call frame frame' st₁ st₁' st₂ st₂' v m hv hm hentries hdefault halike
  refine ⟨_, rfl, run_renderAttribute_named hv hdefault, ?_⟩
  rw [← halike.heap, ← halike.presence]
  exact run_renderAttributeMap_singleton hm hentries (hexclude name hfree')

def isWritten : Node Compiled → Bool
  | .text _ => true
  | _ => false

/-- All that the directives set has this name, if it is named, and this expression, and leaves the name free. -/
def setsFree (name? : Option Bytes) (expr name : Bytes) (ds : Directives) (written : List RawAttribute) : Bool :=
  ((ds.clause? .attributes).any fun t => (Clause.attributes t).toOption.any fun entries =>
    entries.map (fun e => (e.name, e.expr.value)) == [(name?, expr)]) &&
  (written.all fun a => Text.Apart a.name.value name) &&
  ds.translations.toOption.all fun entries => entries.all fun e => Text.Apart e.1 name

theorem exists_setsOnly_of_setsFree {name? : Option Bytes} {expr name : Bytes} {ds : Directives}
    {written : List RawAttribute} (h : setsFree name? expr name ds written = true) :
    (∃ x, ds.SetsOnly ⟨name?, x⟩ ∧ x.value = expr) ∧ ds.LeavesFree written name := by
  simp only [setsFree, Bool.and_eq_true] at h
  obtain ⟨⟨hentries, hwritten⟩, htranslated⟩ := h
  refine ⟨?_, fun a ha => of_decide_eq_true (List.all_eq_true.1 hwritten a ha), fun entries hok e he => ?_⟩
  · obtain ⟨t, hclause, hentries⟩ := (Option.any_eq_true _ _).1 hentries
    obtain ⟨entries, hok, hentries⟩ := (Option.any_eq_true _ _).1 hentries
    obtain ⟨entry, rfl, hentry⟩ := List.map_eq_singleton_iff.1 (beq_iff_eq.1 hentries)
    obtain ⟨rfl, rfl⟩ := Prod.mk.inj hentry
    exact ⟨entry.expr, ⟨t, hclause, eq_ok_of_toOption hok⟩, rfl⟩
  · rw [hok] at htranslated
    exact of_decide_eq_true (List.all_eq_true.1 htranslated e he)

/-- The check of a template whose only element has this start tag, of which not all is written. -/
theorem exists_of_checked (r : Registry) (source : Bytes) (name? : Option Bytes) (expr name : Bytes)
    (htag : ((compileTemplate r [] source 0).toOption.any fun p => p.main.all.any (isStartTag fun _ _ attributes _ =>
      !attributes.all isWritten)) = true)
    (hheads : ((Markup.parse source []).toOption.all fun tree => (Markup.elementHeads tree).all fun head =>
      (Directives.classify head.attributes []).toOption.all fun c => setsFree name? expr name c.1 c.2) = true) :
    ∃ p lead tag attributes tail, compileTemplate r [] source 0 = .ok p ∧
      .startTag lead tag attributes tail ∈ p.main.all ∧
      ∀ ds written, Directives.Of source [] lead tag tail ds written →
        (attributes ≠ written.map fun a => .text a.text) ∧
        (∃ x, ds.SetsOnly ⟨name?, x⟩ ∧ x.value = expr) ∧ ds.LeavesFree written name := by
  obtain ⟨p, lead, tag, attributes, tail, hp, hn, htag⟩ := exists_startTag htag
  refine ⟨p, lead, tag, attributes, tail, hp, hn, ?_⟩
  rintro ds written ⟨tree, head, hparse, hhead, hclassify, _⟩
  refine ⟨?_, ?_⟩
  · rintro rfl
    have hwritten : (written.map fun a => (.text a.text : Node Compiled)).all isWritten = true := by simp [isWritten]
    change (!List.all _ _) = true at htag
    rw [hwritten] at htag
    cases htag
  · rw [hparse] at hheads
    have hhead := List.all_eq_true.1 hheads head hhead
    rw [hclassify] at hhead
    exact exists_setsOnly_of_setsFree hhead

theorem mapped_attribute_written_as_named_quotes :
    let registry := Registry.initial (utf8 "path") []
    let source := utf8 "<a title=\"w\" tal:attributes=\"href x\" i18n:attributes=\"lang\">t</a>"
    let source' := utf8 "<a title=\"w\" tal:attributes=\"m\" i18n:attributes=\"lang\">t</a>"
    let v := Value.text (utf8 "a \"b\"")
    let m := Value.map .text .any [(.text (utf8 "href"), v)]
    let st : State := { world := {}, vars := [(utf8 "x", v), (utf8 "m", m)] }
    let w := utf8 " href=\"a &quot;b&quot;\""
    ∃ (p p' : Program) (lead tag : Bytes) (attributes : List (Node Compiled)) (tail lead' tag' : Bytes)
      (attributes' : List (Node Compiled)) (tail' : Bytes) (before after others : List (Node Compiled))
      (c c' : Compiled) (exclude : List Bytes) (st₁ st₂ : State),
      compileTemplate registry [] source 0 = .ok p ∧ compileTemplate registry [] source' 0 = .ok p' ∧
      .startTag lead tag attributes tail ∈ p.main.all ∧ .startTag lead' tag' attributes' tail' ∈ p'.main.all ∧
      attributes = before ++ .attr (.named (utf8 "href") c) :: after ∧
      attributes' = others ++ [.attributeMap c' exclude] ∧
      (evaluate default c).run st = some (.ok v, st₁) ∧ (evaluate default c').run st = some (.ok m, st₂) ∧
      (node (toDepth 0) default (.attr (.named (utf8 "href") c))).run st = some (.ok (), st₁.writing w) ∧
      (node (toDepth 0) default (.attributeMap c' exclude)).run st = some (.ok (), st₂.writing w) := by
  intro registry source source' v m st w
  obtain ⟨p, lead, tag, attributes, tail, hp, hn, hchecked⟩ :=
    exists_of_checked registry source (some (utf8 "href")) (utf8 "x") (utf8 "href") (by decide +kernel)
      (by decide +kernel)
  obtain ⟨p', lead', tag', attributes', tail', hp', hn', hchecked'⟩ :=
    exists_of_checked registry source' none (utf8 "m") (utf8 "href") (by decide +kernel) (by decide +kernel)
  obtain ⟨ds, written, ds', written', hmake, hmake', hset⟩ :=
    mapped_attribute_written_as_named hp hp' (.inl hn) (.inl hn')
  obtain ⟨hplaced, ⟨x, hnamed, hx⟩, hfree⟩ := hchecked ds written hmake.element
  obtain ⟨hplaced', ⟨x', hmapped, hx'⟩, hfree'⟩ := hchecked' ds' written' hmake'.element
  obtain ⟨before, after, others, c, c', exclude, hc, hc', hattributes, _, _, hattributes', hwritten⟩ :=
    hset hplaced hplaced' (utf8 "href") x x' hnamed hmapped hfree hfree'
  have hpath : registry.compile (utf8 "x") = .ok (.path (utf8 "x") []) := by with_unfolding_all rfl
  have hpath' : registry.compile (utf8 "m") = .ok (.path (utf8 "m") []) := by with_unfolding_all rfl
  rw [hx, hpath, Except.ok.injEq] at hc
  rw [hx', hpath', Except.ok.injEq] at hc'
  let told (e : Compiled) (given : Value) : State :=
    { st with events := [.evaluated e (.ok given)], views := [⟨default, e, st.vars, st.assigned, st.world⟩] }
  have hv : (evaluate default c).run st = some (.ok v, told c v) := by
    obtain ⟨id, evaluator, site⟩ := c
    cases hc
    rfl
  have hm : (evaluate default c').run st = some (.ok m, told c' m) := by
    obtain ⟨id', evaluator', site'⟩ := c'
    cases hc'
    rfl
  have hentries : mapEntries (told c' m).world m = .ok [(utf8 "href", v)] := by with_unfolding_all rfl
  have htext : attributeText st.world.heap (writesByPresence default st) (utf8 "href") v = w := by decide +kernel
  obtain ⟨w', hw', hnode, hnode'⟩ :=
    hwritten (toDepth 0) default default st _ st _ v m hv hm hentries rfl ⟨rfl, rfl⟩
  obtain rfl : w' = w := hw'.trans htext
  exact ⟨p, p', lead, tag, attributes, tail, lead', tag', attributes', tail', before, after, others, c, c', exclude,
    told c v, told c' m, hp, hp', hn, hn', hattributes, hattributes', hv, hm, hnode, hnode'⟩

/-- A name that is translated, or is another in lower case only, is left out of a mapping. The default marker in a
mapping is written like any value. -/
theorem mapped_attribute_differs_from_named :
    let render (source : String) (v : Value) : Option Bytes :=
      (compileTemplate (Registry.initial (utf8 "path") []) [] (utf8 source) 0).toOption.bind fun p =>
        ((renderEntry (toDepth 1) 0 0 [] []).run { world := { programs := [p], settings := [{}] }
                                                   vars := [(utf8 "x", v)] }).map (·.2.out.text)
    let mapping (name : String) (v : Value) : Value := .map .text .any [(.text (utf8 name), v)]
    render "<a tal:attributes=\"title x\" i18n:attributes=\"title\">t</a>" (.text (utf8 "v")) =
        some (utf8 "<a title=\"v\">t</a>") ∧
      render "<a tal:attributes=\"x\" i18n:attributes=\"title\">t</a>" (mapping "title" (.text (utf8 "v"))) =
        some (utf8 "<a title=\"\">t</a>") ∧
      render "<a İd=\"1\" tal:attributes=\"id x\">t</a>" (.text (utf8 "v")) =
        some (utf8 "<a İd=\"1\" id=\"v\">t</a>") ∧
      render "<a İd=\"1\" tal:attributes=\"x\">t</a>" (mapping "id" (.text (utf8 "v"))) =
        some (utf8 "<a İd=\"1\">t</a>") ∧
      render "<a tal:attributes=\"title x\">t</a>" .default = some (utf8 "<a>t</a>") ∧
      render "<a tal:attributes=\"x\">t</a>" (mapping "title" .default) =
        some (utf8 "<a title=\"&lt;default&gt;\">t</a>") := by
  refine ⟨?_, ?_, ?_, ?_, ?_, ?_⟩ <;> decide +kernel

end Render

end PageTemplate
