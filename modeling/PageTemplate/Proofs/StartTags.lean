import PageTemplate.Proofs.Clauses

/-!
The start tags of a program. A start tag is built from that of an element of the source: it has the attributes written
there in order, each as written or with a value to be worked out, then those that only directives name, then the
mappings. The main statement is `originates_of_compileTemplate`.
-/

namespace PageTemplate

open Markup (RawAttribute ElementHead Spelling isBareByte isAttributeNameByte IsAttributeName)

variable {source filename : Bytes}
variable {tree : List Markup.Node}

namespace Directives

/-- A name that the element gives a value to. -/
def Sets (ds : Directives) (name : Bytes) : Prop :=
  ∃ t entries entry, ds.clause? .attributes = some t ∧ Clause.attributes t = .ok entries ∧ entry ∈ entries ∧
    entry.name = some name

/-- A name whose value the element asks to be translated. -/
def Translates (ds : Directives) (name : Bytes) : Prop :=
  ∃ t entries msgid, ds.clause? .translatedAttributes = some t ∧ Clause.translatedAttributes t = .ok entries ∧
    (name, msgid) ∈ entries

/-- How many mappings give attributes to the element. -/
def mappings (ds : Directives) : Nat :=
  match (ds.clause? .attributes).map Clause.attributes with
  | some (.ok entries) => entries.countP (·.name.isNone)
  | _ => 0

end Directives

/-- A text can stand as a value between quotes, or without any. -/
structure Fits (quote s : Bytes) : Prop where
  quoted : ∀ q ∈ quote, q ∉ s
  bare : quote = [] → s ≠ [] ∧ ∀ b ∈ s, isBareByte b = true ∧ b ≠ Byte.nul ∧ b ≠ Byte.less

/-- What is fixed in an operand can stand between quotes. Without quotes around it, it is fixed as a whole or worked
out. -/
def Operand.Fits {ε : Type} (quote : Bytes) : Operand ε → Prop
  | .literal s => PageTemplate.Fits quote s
  | .expr _ => True
  | .interpolated _ parts => ∀ s, .literal s ∈ parts → ∀ q ∈ quote, q ∉ s
  | .isDefault _ | .not _ | .missing => False

/-- An attribute for a written one, whose value is worked out from that unless the directives give it one. -/
structure DynamicAttribute.Keeps {ε : Type} (ds : Directives) (a : RawAttribute) (d : DynamicAttribute ε) :
    Prop where
  space : d.space = a.space
  name : d.name = a.name.value
  delimiters : (d.eq, d.quote) = if a.hasValue then (a.eq, a.quote) else ([Byte.equals], [Byte.doubleQuote])
  value : d.value.Fits d.quote
  written : ∀ s, d.written = some s → a.hasValue = true ∧ s = a.value.value
  source : ∀ source parts, d.value = .interpolated source parts → source = a.value.value
  set : ∀ e, d.value = .expr e → ∃ name, ds.Sets name ∧ Text.equalFold d.name name = true
  translated : d.translate = true → ∃ name, ds.Translates name ∧ Text.equalFold d.name name = true

/-- An attribute that only the directives of an element name. -/
structure DynamicAttribute.Added {ε : Type} (ds : Directives) (d : DynamicAttribute ε) : Prop where
  space : d.space = [Byte.space]
  eq : d.eq = [Byte.equals]
  quote : d.quote = [Byte.doubleQuote]
  value : d.value.Fits d.quote
  written : d.written = none
  name : ds.Sets d.name ∨ d.translate = true ∧ ds.Translates d.name

/-- The node of a written attribute. It is left as it is if there is nothing to work out in its value. -/
inductive Node.Keeps {ε : Type} (ds : Directives) (a : RawAttribute) : Node ε → Prop where
  | text : (a.hasValue = true → Byte.dollar ∉ a.value.value) → Keeps ds a (.text a.text)
  | attr {d : DynamicAttribute ε} : d.Keeps ds a → Keeps ds a (.attr d)

/-- The attributes of a start tag: the written ones in order, then those that only directives name, then the mappings,
which give no name again. All that directives name is there. -/
structure AttributesOf {ε : Type} (ds : Directives) (written : List RawAttribute) (attributes : List (Node ε)) :
    Prop where
  parts : ∃ (kept : List (Node ε)) (added : List (DynamicAttribute ε)) (maps : List ε),
    attributes = kept ++ added.map .attr ++ maps.map (.attributeMap ·
      (written.map (fun a => Text.lower a.name.value) ++ added.map fun d => Text.lower d.name)) ∧
    List.Forall₂ (Node.Keeps ds) written kept ∧ (∀ d ∈ added, d.Added ds) ∧ maps.length = ds.mappings
  sets : ∀ name, ds.Sets name →
    ∃ d e, .attr d ∈ attributes ∧ Text.equalFold d.name name = true ∧ d.value = .expr e
  translates : ∀ name, ds.Translates name →
    ∃ d, .attr d ∈ attributes ∧ Text.equalFold d.name name = true ∧ d.translate = true

/-- The node is an attribute of the name, written as it is or worked out. -/
inductive Node.Bears {ε : Type} (written : List RawAttribute) (name : Bytes) : Node ε → Prop where
  | text {a : RawAttribute} : a ∈ written → a.name.value = name → Bears written name (.text a.text)
  | attr {d : DynamicAttribute ε} : d.name = name → Bears written name (.attr d)

/-- The attributes of a start tag with their names, and then the mappings, which leave these out. If the written names
are distinct, so are all. -/
def NamesOf {ε : Type} (written : List RawAttribute) (attributes : List (Node ε)) : Prop :=
  ∃ (names : List Bytes) (named : List (Node ε)) (maps : List ε),
    attributes = named ++ maps.map (.attributeMap · (names.map Text.lower)) ∧
    List.Forall₂ (Node.Bears written) names named ∧
    (DistinctNames (written.map (·.name.value)) → DistinctNames names)

/-- A start tag is that of an element of the source. An element that fails shows its attributes as written. -/
def Node.Originates {ε : Type} (source filename : Bytes) : Node ε → Prop
  | .startTag lead n attributes tail =>
    ∃ tree head ds written, Markup.parse source filename = .ok tree ∧ head ∈ Markup.elementHeads tree ∧
      Directives.classify head.attributes [] = .ok (ds, written) ∧ lead = head.start.opening ∧ n = head.name ∧
      (tail = head.start.ending ∨ tail = utf8 ">") ∧
      (AttributesOf ds written attributes ∨
        ds.has .onError = true ∧ attributes = written.map fun a => .text a.text)
  | _ => True

namespace Markup

variable {a : Spelling}

theorem Spelling.Legible.fits (ha : a.Legible) (heq : a.value.eq ≠ []) : Fits a.value.quote a.value.value := by
  obtain ⟨space, name, v⟩ := a
  have hv := ha.value
  have houtside := ha.outside
  cases hv with
  | absent => simp at heq
  | quoted _ _ _ hvalue => exact ⟨by simpa using hvalue, by simp⟩
  | @bare before after value _ _ hne hvalue =>
    refine ⟨by simp, fun _ => ⟨hne, fun b hb => ⟨hvalue b hb, houtside b ?_⟩⟩⟩
    simp [Spelling.outside, hb]

theorem Spelling.Legible.value_eq_nil (ha : a.Legible) (heq : a.value.eq = []) : a.value.value = [] := by
  obtain ⟨space, name, v⟩ := a
  have hv := ha.value
  cases hv with
  | absent => rfl
  | quoted => simp at heq
  | bare => simp at heq

end Markup

theorem fits_written {a : RawAttribute} (ha : a.spelling.Legible) {eq quote : Bytes}
    (h : (eq, quote) = if a.hasValue then (a.eq, a.quote) else ([Byte.equals], [Byte.doubleQuote])) :
    Fits quote a.value.value := by
  split at h
  · next hvalue =>
    cases h
    have heq : a.eq ≠ [] := by simpa [RawAttribute.hasValue] using hvalue
    exact ha.fits heq
  · next hvalue =>
    cases h
    have heq : a.eq = [] := by simpa [RawAttribute.hasValue] using hvalue
    have hnil : a.value.value = [] := ha.value_eq_nil heq
    rw [hnil]
    exact ⟨by simp, by simp⟩

namespace Builder

open Expression (Registry)

variable {r : Registry}
variable {name : Bytes} {slots : List AttributeSlot} {ds : Directives} {written : List RawAttribute}

/-- Nothing is asked of failures, nor of nodes as such. -/
abbrev Gives {α : Type} (Q : α → Prop) (act : Build α) : Prop := Builds (fun _ => True) (fun _ => True) Q act

theorem Builds.any {α : Type} (act : Build α) : Gives (fun _ => True) act :=
  fun _ _ => ⟨fun _ _ => ⟨trivial, fun _ _ _ _ => trivial⟩, fun _ _ => trivial⟩

/-- The literal parts of an interpolated text have only its bytes, and a text that is not empty has parts. -/
theorem gives_parts (t : Markup.Token) :
    Gives (fun ps => (∀ s, .literal s ∈ ps → s ≠ [] ∧ s ⊆ t.value) ∧ (t.value ≠ [] → ps ≠ [])) (parts r t) := by
  unfold parts
  split
  · exact .throw trivial
  · next fs hfs =>
    obtain ⟨hwithin, hne⟩ := (r.yields_fragments t.value).1 fs hfs
    let IsPartOf (f : Expression.Fragment) (p : Part Expr) : Prop :=
      ∀ s, p = .literal s → f.isExpression = false ∧ f.value = s
    have hparts : Gives (List.Forall₂ IsPartOf fs) (fs.mapM fun f =>
        if f.isExpression then return .expr (← expression r (fragmentToken t f)) else return .literal f.value) := by
      refine .mapM_forall₂ fun f _ => ?_
      split
      · exact .bind (.any _) fun _ _ => .pure nofun
      · next hf => exact .pure fun s hs => ⟨by simpa using hf, by cases hs; rfl⟩
    refine .of_imp (fun ps hps => ⟨fun s hs => ?_, fun htext hnil => ?_⟩) hparts
    · obtain ⟨f, hf, hfs⟩ := exists_of_forall₂ hps hs
      obtain ⟨hexpr, rfl⟩ := hfs s rfl
      exact hwithin f hf hexpr
    · subst hnil
      cases hps
      exact hne htext rfl

theorem literalText?_spec {ps : List (Part Expr)} {s : Bytes} (h : literalText? ps = some s) {text : Bytes}
    (hps : ∀ s, .literal s ∈ ps → s ≠ [] ∧ s ⊆ text) : s ⊆ text ∧ (ps ≠ [] → s ≠ []) := by
  induction ps generalizing s with
  | nil =>
    cases h
    exact ⟨List.nil_subset _, fun hne => absurd rfl hne⟩
  | cons p ps ih =>
    cases p with
    | expr e => cases h
    | literal l =>
      obtain ⟨rest, hrest, rfl⟩ := Option.map_eq_some_iff.1 h
      obtain ⟨hne, hl⟩ := hps l List.mem_cons_self
      obtain ⟨hsubset, _⟩ := ih hrest fun s hs => hps s (List.mem_cons_of_mem _ hs)
      exact ⟨List.append_subset.2 ⟨hl, hsubset⟩, by simp [hne]⟩

theorem literalAttribute_eq (a : RawAttribute) :
    let delimiters := if a.hasValue then (a.eq, a.quote) else ([Byte.equals], [Byte.doubleQuote])
    literalAttribute a =
      { name := a.name.value, value := .literal a.value.value, space := a.space, eq := delimiters.1
        quote := delimiters.2 } := by
  unfold literalAttribute
  dsimp only
  split <;> rfl

theorem gives_writtenAttribute (ds : Directives) {a : RawAttribute} (ha : a.spelling.Legible) :
    Gives (Node.Keeps ds a) (writtenAttribute r a) := by
  unfold writtenAttribute
  split
  · next hvalue =>
    refine .pure (.text fun hhas hdollar => ?_)
    simp [hhas, hdollar] at hvalue
  · next hvalue =>
    simp only [Bool.or_eq_true, Bool.not_eq_true', not_or, Bool.not_eq_false] at hvalue
    have hdelimiters : (a.eq, a.quote) =
        if a.hasValue then (a.eq, a.quote) else ([Byte.equals], [Byte.doubleQuote]) := by rw [if_pos hvalue.1]
    refine .bind (gives_parts a.value) fun ps hps => ?_
    split
    · next s hs =>
      obtain ⟨hsubset, hne⟩ := literalText?_spec hs hps.1
      rw [literalAttribute_eq]
      refine .pure (.attr ⟨rfl, rfl, rfl, ⟨fun q hq hmem => ?_, fun hbare => ?_⟩, nofun, nofun, nofun, nofun⟩)
      · exact (fits_written ha rfl).quoted q hq (hsubset hmem)
      · obtain ⟨hvalueNe, hbytes⟩ := (fits_written ha rfl).bare hbare
        exact ⟨hne (hps.2 hvalueNe), fun b hb => hbytes b (hsubset hb)⟩
    · refine .pure (.attr ⟨rfl, rfl, hdelimiters, fun s hs q hq hmem => ?_, nofun, ?_, nofun, nofun⟩)
      · exact (fits_written ha hdelimiters).quoted q hq ((hps.1 s hs).2 hmem)
      · rintro source parts ⟨⟩
        rfl

/-- A slot holds a written attribute, or one that only the directives name. -/
def AttributeSlot.Holds (ds : Directives) (s : AttributeSlot) : Prop :=
  match s.raw with
  | some a => a.spelling.Legible ∧ s.name = a.name.value ∧ s.node.Keeps ds a
  | none => ∃ d : DynamicAttribute Expr, s.node = .attr d ∧ d.name = s.name ∧ d.Added ds

/-- Slots that are made for the written attributes, in their order, and new ones behind them. -/
structure SlotsOf (ds : Directives) (written : List RawAttribute) (slots : List AttributeSlot) : Prop where
  holds : ∀ s ∈ slots, s.Holds ds
  raw : ∃ n, slots.map (·.raw) = written.map some ++ List.replicate n none
  distinct : DistinctNames (written.map (·.name.value)) → DistinctNames (slots.map (·.name))

/-- The slot of a written attribute holds one of its name, as does any other. -/
theorem SlotsOf.bears (h : SlotsOf ds written slots) {s : AttributeSlot} (hs : s ∈ slots) :
    s.node.Bears written s.name := by
  have hholds := h.holds s hs
  have hmem : s.raw ∈ slots.map (·.raw) := List.mem_map_of_mem hs
  obtain ⟨n, hn⟩ := h.raw
  rw [hn] at hmem
  obtain ⟨label, raw, node⟩ := s
  cases raw with
  | none =>
    obtain ⟨d, hnode, hname, _⟩ := hholds
    exact hnode ▸ .attr hname
  | some a =>
    obtain ⟨_, hname, hkeeps⟩ := hholds
    cases hkeeps with
    | text => exact .text (by simpa using hmem) hname.symm
    | attr hd => exact .attr (hd.name.trans hname.symm)

theorem SlotsOf.name_eq (h : SlotsOf ds written slots) {s : AttributeSlot} (hs : s ∈ slots)
    {d : DynamicAttribute Expr} (hd : s.node = .attr d) : d.name = s.name := by
  have hbears := h.bears hs
  rw [hd] at hbears
  cases hbears with
  | attr hname => exact hname

theorem exists_of_updateSlot? {f : AttributeSlot → AttributeSlot} {slots' : List AttributeSlot}
    (h : updateSlot? name f slots = some slots') :
    ∃ before s after, slots = before ++ s :: after ∧ slots' = before ++ f s :: after ∧
      Text.equalFold s.name name = true := by
  induction slots generalizing slots' with
  | nil => simp [updateSlot?] at h
  | cons s slots ih =>
    unfold updateSlot? at h
    split at h
    · next hfold =>
      cases h
      exact ⟨[], s, slots, rfl, rfl, hfold⟩
    · obtain ⟨rest, hrest, rfl⟩ := Option.map_eq_some_iff.1 h
      obtain ⟨before, s', after, rfl, rfl, hfold⟩ := ih hrest
      exact ⟨s :: before, s', after, rfl, rfl, hfold⟩

theorem updateSlot?_eq_none_iff {f : AttributeSlot → AttributeSlot} :
    updateSlot? name f slots = none ↔ ∀ s ∈ slots, Text.equalFold s.name name = false := by
  induction slots with
  | nil => simp [updateSlot?]
  | cons s slots ih =>
    unfold updateSlot?
    rw [List.forall_mem_cons, ← ih]
    split
    · next hfold => simp [hfold]
    · next hfold => simp [hfold]

section Update

variable {name : Bytes} {f : AttributeSlot → AttributeSlot} {new : AttributeSlot} {slots : List AttributeSlot}
  {P : AttributeSlot → Prop}

theorem exists_mem_of_kept (hf : ∀ s, P s → P (f s)) (h : ∃ s ∈ slots, P s) :
    ∃ s ∈ (updateSlot? name f slots).getD (slots ++ [new]), P s := by
  obtain ⟨s, hs, hP⟩ := h
  cases hupdate : updateSlot? name f slots with
  | none => exact ⟨s, List.mem_append_left _ hs, hP⟩
  | some slots' =>
    obtain ⟨before, s', after, rfl, rfl, _⟩ := exists_of_updateSlot? hupdate
    rcases List.mem_append.1 hs with hs | hs
    · exact ⟨s, List.mem_append_left _ hs, hP⟩
    · rcases List.mem_cons.1 hs with rfl | hs
      · exact ⟨f s, by simp, hf s hP⟩
      · exact ⟨s, by simp [hs], hP⟩

theorem exists_mem_of_updated (hf : ∀ s ∈ slots, Text.equalFold s.name name = true → P (f s)) (hnew : P new) :
    ∃ s ∈ (updateSlot? name f slots).getD (slots ++ [new]), P s := by
  cases hupdate : updateSlot? name f slots with
  | none => exact ⟨new, by simp, hnew⟩
  | some slots' =>
    obtain ⟨before, s, after, rfl, rfl, hfold⟩ := exists_of_updateSlot? hupdate
    exact ⟨f s, by simp, hf s (by simp) hfold⟩

end Update

theorem SlotsOf.update (h : SlotsOf ds written slots) {f : AttributeSlot → AttributeSlot} {new : AttributeSlot}
    (hsame : ∀ s, (f s).raw = s.raw ∧ (f s).name = s.name)
    (hf : ∀ s ∈ slots, Text.equalFold s.name name = true → s.Holds ds → (f s).Holds ds) (hnew : new.Holds ds)
    (hnewRaw : new.raw = none) (hnewName : new.name = name) :
    SlotsOf ds written ((updateSlot? name f slots).getD (slots ++ [new])) := by
  have hholds := forall_mem_updateSlot?_getD hf hnew h.holds
  obtain ⟨n, hn⟩ := h.raw
  cases hupdate : updateSlot? name f slots with
  | some slots' =>
    rw [hupdate] at hholds
    obtain ⟨before, s, after, rfl, rfl, _⟩ := exists_of_updateSlot? hupdate
    exact ⟨hholds, ⟨n, by simpa [hsame] using hn⟩, by simpa [hsame] using h.distinct⟩
  | none =>
    rw [hupdate] at hholds
    refine ⟨hholds, ⟨n + 1, by simp [hn, hnewRaw, List.replicate_succ']⟩, fun hwritten => ?_⟩
    rw [Option.getD_none, List.map_append, List.map_singleton, hnewName]
    exact (h.distinct hwritten).append_singleton (List.forall_mem_map.2 (updateSlot?_eq_none_iff.1 hupdate))

/-- A dynamic attribute takes its place, if none that only the directives name has its name. -/
theorem SlotsOf.addDynamic (h : SlotsOf ds written slots) (hname : ds.Sets name)
    (hfree : ∀ s ∈ slots, s.raw = none → Text.equalFold s.name name = false) (e : Expr) :
    SlotsOf ds written (addDynamic slots name e) := by
  refine h.update (fun s => ⟨rfl, rfl⟩) (fun s hs hfold hholds => ?_) ⟨_, rfl, rfl, ?_⟩ rfl rfl
  · obtain ⟨slotName, raw, node⟩ := s
    cases raw with
    | none => simp [hfree _ hs rfl] at hfold
    | some a =>
      obtain ⟨ha, hslot, _⟩ := hholds
      refine ⟨ha, hslot, ?_⟩
      dsimp only [Option.map_some, Option.getD_some]
      split
      · next hvalue =>
        refine .attr ⟨rfl, hslot, by rw [if_pos hvalue], trivial, fun s hs => ⟨hvalue, ?_⟩, nofun,
          fun _ _ => ⟨name, hname, hfold⟩, nofun⟩
        exact (Option.some.inj hs).symm
      · next hvalue =>
        exact .attr ⟨rfl, hslot, by rw [if_neg hvalue], trivial, nofun, nofun, fun _ _ => ⟨name, hname, hfold⟩,
          nofun⟩
  · exact ⟨rfl, rfl, rfl, trivial, rfl, .inl hname⟩

theorem SlotsOf.addTranslated (h : SlotsOf ds written slots) (msgid : Bytes) (hname : ds.Translates name) :
    SlotsOf ds written (addTranslated slots name msgid) := by
  refine h.update (fun s => ?_) (fun s hs hfold hholds => ?_) ⟨_, rfl, rfl, ?_⟩ rfl rfl
  · dsimp only
    split <;> exact ⟨rfl, rfl⟩
  · obtain ⟨slotName, raw, node⟩ := s
    cases raw with
    | none =>
      obtain ⟨d, hnode, hd, hadded⟩ := hholds
      cases hnode
      exact ⟨_, rfl, hd, hadded.space, hadded.eq, hadded.quote, hadded.value, hadded.written,
        hadded.name.imp_right fun h => ⟨rfl, h.2⟩⟩
    | some a =>
      obtain ⟨ha, hslot, hkeeps⟩ := hholds
      have hmark : ∀ {d : DynamicAttribute Expr}, d.Keeps ds a →
          (Node.attr { d with translate := true, msgid := msgid }).Keeps ds a := by
        intro d hd
        refine .attr ⟨hd.space, hd.name, hd.delimiters, hd.value, hd.written, hd.source, hd.set, fun _ => ?_⟩
        exact ⟨name, hname, by rw [hd.name, ← hslot, hfold]⟩
      cases hkeeps with
      | text =>
        have hliteral : (literalAttribute a).Keeps ds a := by
          rw [literalAttribute_eq]
          exact ⟨rfl, rfl, rfl, fits_written ha rfl, nofun, nofun, nofun, nofun⟩
        exact ⟨ha, hslot, hmark hliteral⟩
      | attr hd => exact ⟨ha, hslot, hmark hd⟩
  · exact ⟨rfl, rfl, rfl, ⟨by simp, by simp⟩, rfl, .inr ⟨rfl, hname⟩⟩

/-! ### Names in slots -/

/-- The slot holds an attribute of the name, in any case, to which the directives give a value. -/
def AttributeSlot.IsSet (name : Bytes) (s : AttributeSlot) : Prop :=
  Text.equalFold s.name name = true ∧ ∃ d e, s.node = .attr d ∧ d.value = .expr e

/-- The slot holds an attribute of the name, in any case, that is translated. -/
def AttributeSlot.IsTranslated (name : Bytes) (s : AttributeSlot) : Prop :=
  Text.equalFold s.name name = true ∧ ∃ d, s.node = .attr d ∧ d.translate = true

theorem exists_isSet_addDynamic (slots : List AttributeSlot) (name : Bytes) (e : Expr) :
    ∃ s ∈ addDynamic slots name e, s.IsSet name := by
  refine exists_mem_of_updated (fun s _ hfold => ⟨hfold, ?_⟩) ⟨by simp [Text.equalFold], _, _, rfl, rfl⟩
  dsimp only
  split
  · split <;> exact ⟨_, _, rfl, rfl⟩
  · exact ⟨_, _, rfl, rfl⟩

theorem isSet_addDynamic (h : ∃ s ∈ slots, s.IsSet name) (name' : Bytes) (e : Expr) :
    ∃ s ∈ addDynamic slots name' e, s.IsSet name := by
  refine exists_mem_of_kept (fun s hs => ⟨hs.1, ?_⟩) h
  dsimp only
  split
  · split <;> exact ⟨_, _, rfl, rfl⟩
  · exact ⟨_, _, rfl, rfl⟩

theorem isSet_addTranslated (h : ∃ s ∈ slots, s.IsSet name) (name' msgid : Bytes) :
    ∃ s ∈ addTranslated slots name' msgid, s.IsSet name := by
  refine exists_mem_of_kept (fun s hs => ?_) h
  obtain ⟨hfold, d, e, hd, he⟩ := hs
  dsimp only
  rw [hd]
  exact ⟨hfold, _, e, rfl, he⟩

theorem isTranslated_addTranslated (h : ∃ s ∈ slots, s.IsTranslated name) (name' msgid : Bytes) :
    ∃ s ∈ addTranslated slots name' msgid, s.IsTranslated name := by
  refine exists_mem_of_kept (fun s hs => ?_) h
  obtain ⟨hfold, d, hd, _⟩ := hs
  dsimp only
  rw [hd]
  exact ⟨hfold, _, rfl, rfl⟩

theorem exists_isTranslated_addTranslated (h : SlotsOf ds written slots) (name msgid : Bytes) :
    ∃ s ∈ addTranslated slots name msgid, s.IsTranslated name := by
  refine exists_mem_of_updated (fun s hs hfold => ?_) ⟨by simp [Text.equalFold], _, rfl, rfl⟩
  have hholds := h.holds s hs
  obtain ⟨slotName, raw, node⟩ := s
  cases raw with
  | none =>
    obtain ⟨d, hnode, _⟩ := hholds
    cases hnode
    exact ⟨hfold, _, rfl, rfl⟩
  | some a =>
    obtain ⟨_, _, hkeeps⟩ := hholds
    cases hkeeps with
    | text => exact ⟨hfold, _, rfl, rfl⟩
    | attr _ => exact ⟨hfold, _, rfl, rfl⟩

/-- The entries of a clause take their places in turn. Those that are new have been seen. -/
theorem gives_placeEntries {entries : List Clause.AttributeEntry}
    (hsets : ∀ entry ∈ entries, ∀ name, entry.name = some name → ds.Sets name) {seen : List Bytes}
    (hdistinct : Clause.Distinct seen entries) (hslots : SlotsOf ds written slots)
    (hseen : ∀ s ∈ slots, s.raw = none → Clause.IsName s.name ∧ Text.lower s.name ∈ seen) (maps : List Expr) :
    Gives (fun p => SlotsOf ds written p.1 ∧
        (∀ name, ((∃ s ∈ slots, s.IsSet name) ∨ ∃ entry ∈ entries, entry.name = some name) →
          ∃ s ∈ p.1, s.IsSet name) ∧
        p.2.length = maps.length + entries.countP (·.name.isNone))
      (placeEntries r entries slots maps) := by
  induction entries generalizing seen slots maps with
  | nil => exact .pure ⟨hslots, fun name h => h.resolve_right (by simp), by simp⟩
  | cons entry entries ih =>
    obtain ⟨hentry, hsets⟩ := List.forall_mem_cons.1 hsets
    unfold placeEntries
    refine .bind (.any _) fun e _ => ?_
    unfold Clause.Distinct at hdistinct
    cases hname : entry.name with
    | none =>
      rw [hname] at hdistinct
      refine .of_imp ?_ (ih hsets hdistinct hslots hseen (maps ++ [e]))
      rintro p ⟨hof, hset, hmaps⟩
      refine ⟨hof, fun name h => hset name ?_, ?_⟩
      · simpa [hname] using h
      · rw [hmaps, List.length_append, List.length_singleton, List.countP_cons, hname, Option.isNone_none,
          if_pos rfl]
        omega
    | some name =>
      rw [hname] at hdistinct
      obtain ⟨hisName, hnew, hrest⟩ := hdistinct
      -- New slots have names that were seen, so the entry does not take the place of an earlier one.
      have hfree : ∀ s ∈ slots, s.raw = none → Text.equalFold s.name name = false := by
        intro s hs hraw
        obtain ⟨hslotName, hmem⟩ := hseen s hs hraw
        rw [← Bool.not_eq_true]
        intro hfold
        have hlower := Text.lower_eq_of_equalFold (fun b hb => (hslotName.spelled hb).2.2)
          (fun b hb => (hisName.spelled hb).2.2) hfold
        exact hnew (hlower ▸ hmem)
      have hseen' : ∀ s ∈ addDynamic slots name e, s.raw = none →
          Clause.IsName s.name ∧ Text.lower s.name ∈ Text.lower name :: seen := by
        refine forall_mem_updateSlot?_getD (fun s _ _ h => h) (fun _ => ⟨hisName, List.mem_cons_self⟩) ?_
        exact fun s hs hraw => ⟨(hseen s hs hraw).1, List.mem_cons_of_mem _ (hseen s hs hraw).2⟩
      refine .of_imp ?_ (ih hsets hrest (hslots.addDynamic (hentry name hname) hfree e) hseen' maps)
      rintro p ⟨hof, hset, hmaps⟩
      refine ⟨hof, fun name' h => hset name' ?_, by simpa [hname] using hmaps⟩
      rcases h with h | ⟨entry', hentry', hname'⟩
      · exact .inl (isSet_addDynamic h name e)
      · rcases List.mem_cons.1 hentry' with rfl | hentry'
        · obtain rfl : name = name' := Option.some.inj (hname.symm.trans hname')
          exact .inl (exists_isSet_addDynamic slots name e)
        · exact .inr ⟨entry', hentry', hname'⟩

theorem gives_dynamicSlots (hslots : SlotsOf ds written slots) (hraw : ∀ s ∈ slots, s.raw ≠ none) :
    Gives (fun p => SlotsOf ds written p.1 ∧ (∀ name, ds.Sets name → ∃ s ∈ p.1, s.IsSet name) ∧
        p.2.length = ds.mappings)
      (dynamicSlots r ds slots) := by
  unfold dynamicSlots
  split
  · next t ht =>
    refine .lift_bind (fun _ _ => trivial) fun entries hentries => ?_
    have hsets : ∀ entry ∈ entries, ∀ name, entry.name = some name → ds.Sets name :=
      fun entry hentry name hname => ⟨t, entries, entry, ht, hentries, hentry, hname⟩
    refine .of_imp ?_ (gives_placeEntries hsets (Clause.distinct_of_attributes hentries) hslots
      (fun s hs h => absurd h (hraw s hs)) [])
    rintro p ⟨hof, hset, hmaps⟩
    refine ⟨hof, fun name hname => hset name (.inr ?_), ?_⟩
    · obtain ⟨t', entries', entry, ht', hentries', hentry, hname⟩ := hname
      cases ht.symm.trans ht'
      cases hentries.symm.trans hentries'
      exact ⟨entry, hentry, hname⟩
    · rw [hmaps, Directives.mappings, ht, Option.map_some, hentries, List.length_nil, Nat.zero_add]
  · next hnone =>
    refine .pure ⟨hslots, fun name hname => ?_, ?_⟩
    · obtain ⟨t, _, _, ht, _⟩ := hname
      cases hnone.symm.trans ht
    · rw [Directives.mappings, hnone]
      rfl

theorem SlotsOf.addAllTranslated (h : SlotsOf ds written slots) {entries : List (Bytes × Bytes)}
    (hentries : ∀ p ∈ entries, ds.Translates p.1) :
    let slots' := entries.foldl (fun ss e => Builder.addTranslated ss e.1 e.2) slots
    SlotsOf ds written slots' ∧ (∀ name, (∃ s ∈ slots, s.IsSet name) → ∃ s ∈ slots', s.IsSet name) ∧
      ∀ name, ((∃ s ∈ slots, s.IsTranslated name) ∨ ∃ p ∈ entries, p.1 = name) →
        ∃ s ∈ slots', s.IsTranslated name := by
  induction entries generalizing slots with
  | nil => exact ⟨h, fun _ hset => hset, fun _ htranslated => htranslated.resolve_right (by simp)⟩
  | cons p entries ih =>
    obtain ⟨hp, hentries⟩ := List.forall_mem_cons.1 hentries
    obtain ⟨hof, hset, htranslated⟩ := ih (h.addTranslated p.2 hp) hentries
    refine ⟨hof, fun name hs => hset name (isSet_addTranslated hs p.1 p.2), fun name hs => htranslated name ?_⟩
    rcases hs with hs | ⟨p', hp', rfl⟩
    · exact .inl (isTranslated_addTranslated hs p.1 p.2)
    · rcases List.mem_cons.1 hp' with rfl | hp'
      · exact .inl (exists_isTranslated_addTranslated h p'.1 p'.2)
      · exact .inr ⟨p', hp', rfl⟩

theorem gives_translatedSlots (hslots : SlotsOf ds written slots) :
    Gives (fun slots' => SlotsOf ds written slots' ∧
        (∀ name, (∃ s ∈ slots, s.IsSet name) → ∃ s ∈ slots', s.IsSet name) ∧
        ∀ name, ds.Translates name → ∃ s ∈ slots', s.IsTranslated name)
      (translatedSlots ds slots) := by
  unfold translatedSlots
  split
  · next t ht =>
    refine .lift_bind (fun _ _ => trivial) fun entries hentries => .pure ?_
    have hall : ∀ p ∈ entries, ds.Translates p.1 := fun p hp => ⟨t, entries, p.2, ht, hentries, hp⟩
    obtain ⟨hof, hset, htranslated⟩ := hslots.addAllTranslated hall
    refine ⟨hof, hset, fun name hname => htranslated name (.inr ?_)⟩
    obtain ⟨t', entries', msgid, ht', hentries', hmem⟩ := hname
    cases ht.symm.trans ht'
    cases hentries.symm.trans hentries'
    exact ⟨_, hmem, rfl⟩
  · next hnone =>
    refine .pure ⟨hslots, fun _ h => h, fun name hname => ?_⟩
    obtain ⟨t, _, _, ht, _⟩ := hname
    cases hnone.symm.trans ht

theorem forall₂_keeps (hholds : ∀ s ∈ slots, s.Holds ds) (hraw : slots.map (·.raw) = written.map some) :
    List.Forall₂ (Node.Keeps ds) written (slots.map (·.node)) ∧ slots.map (·.name) = written.map (·.name.value) := by
  induction written generalizing slots with
  | nil =>
    rw [List.map_nil, List.map_eq_nil_iff] at hraw
    rw [hraw]
    exact ⟨.nil, rfl⟩
  | cons a written ih =>
    obtain ⟨s, slots, rfl, hs, hrest⟩ := List.map_eq_cons_iff.1 hraw
    obtain ⟨hhead, hholds⟩ := List.forall_mem_cons.1 hholds
    rw [AttributeSlot.Holds, hs] at hhead
    obtain ⟨hkeeps, hnames⟩ := ih hholds hrest
    exact ⟨.cons hhead.2.2 hkeeps, by rw [List.map_cons, List.map_cons, hhead.2.1, hnames]⟩

/-- Slots that were made for none hold attributes that only the directives name. -/
theorem exists_added (hholds : ∀ s ∈ slots, s.Holds ds) (hraw : ∀ s ∈ slots, s.raw = none) :
    ∃ added : List (DynamicAttribute Expr), slots.map (·.node) = added.map .attr ∧
      slots.map (·.name) = added.map (·.name) ∧ ∀ d ∈ added, d.Added ds := by
  induction slots with
  | nil => exact ⟨[], rfl, rfl, by simp⟩
  | cons s slots ih =>
    obtain ⟨hhead, hholds⟩ := List.forall_mem_cons.1 hholds
    obtain ⟨hs, hraw⟩ := List.forall_mem_cons.1 hraw
    rw [AttributeSlot.Holds, hs] at hhead
    obtain ⟨d, hnode, hname, hadded⟩ := hhead
    obtain ⟨added, hnodes, hnames, hrest⟩ := ih hholds hraw
    refine ⟨d :: added, ?_, ?_, List.forall_mem_cons.2 ⟨hadded, hrest⟩⟩
    · rw [List.map_cons, List.map_cons, hnode, hnodes]
    · rw [List.map_cons, List.map_cons, hname, hnames]

theorem SlotsOf.attributesOf (h : SlotsOf ds written slots) {maps : List Expr} (hmaps : maps.length = ds.mappings)
    (hset : ∀ name, ds.Sets name → ∃ s ∈ slots, s.IsSet name)
    (htranslated : ∀ name, ds.Translates name → ∃ s ∈ slots, s.IsTranslated name) :
    AttributesOf ds written (slots.map (·.node) ++
      maps.map fun e => .attributeMap e (slots.map fun s => Text.lower s.name)) where
  parts := by
    obtain ⟨n, hn⟩ := h.raw
    obtain ⟨old, new, rfl, hold, hnew⟩ := List.map_eq_append_iff.1 hn
    obtain ⟨hholdsOld, hholdsNew⟩ := List.forall_mem_append.1 h.holds
    have hnone : ∀ s ∈ new, s.raw = none := by
      intro s hs
      have hmem : s.raw ∈ new.map (·.raw) := List.mem_map_of_mem hs
      rw [hnew] at hmem
      exact List.eq_of_mem_replicate hmem
    obtain ⟨hkeeps, hnames⟩ := forall₂_keeps hholdsOld hold
    obtain ⟨added, hnodes, hnamesNew, hadded⟩ := exists_added hholdsNew hnone
    have hexclude : (old ++ new).map (fun s => Text.lower s.name) =
        written.map (fun a => Text.lower a.name.value) ++ added.map fun d => Text.lower d.name := by
      simpa [List.map_map, Function.comp_def] using
        congrArg₂ (· ++ ·) (congrArg (List.map Text.lower) hnames) (congrArg (List.map Text.lower) hnamesNew)
    refine ⟨old.map (·.node), added, maps, ?_, hkeeps, hadded, hmaps⟩
    rw [hexclude, List.map_append, hnodes]
  sets name hname := by
    obtain ⟨s, hs, hfold, d, e, hd, he⟩ := hset name hname
    refine ⟨d, e, List.mem_append_left _ (List.mem_map.2 ⟨s, hs, hd⟩), ?_, he⟩
    rw [h.name_eq hs hd, hfold]
  translates name hname := by
    obtain ⟨s, hs, hfold, d, hd, htranslate⟩ := htranslated name hname
    refine ⟨d, List.mem_append_left _ (List.mem_map.2 ⟨s, hs, hd⟩), ?_, htranslate⟩
    rw [h.name_eq hs hd, hfold]

theorem SlotsOf.namesOf (h : SlotsOf ds written slots) (maps : List Expr) :
    NamesOf written (slots.map (·.node) ++
      maps.map fun e => .attributeMap e (slots.map fun s => Text.lower s.name)) := by
  refine ⟨slots.map (·.name), slots.map (·.node), maps, by rw [List.map_map]; rfl, ?_, h.distinct⟩
  rw [List.forall₂_map_left_iff, List.forall₂_map_right_iff, List.forall₂_same]
  exact fun s hs => h.bears hs

theorem gives_attributes (ds : Directives) (hwritten : ∀ a ∈ written, a.spelling.Legible) :
    Gives (fun as => AttributesOf ds written as ∧ NamesOf written as) (attributes r ds written) := by
  let IsSlotOf (a : RawAttribute) (s : AttributeSlot) : Prop :=
    a.spelling.Legible ∧ s.name = a.name.value ∧ s.raw = some a ∧ s.node.Keeps ds a
  have hgives : Gives (List.Forall₂ IsSlotOf written) (written.mapM fun a =>
      return { name := a.name.value, raw := some a, node := ← writtenAttribute r a : AttributeSlot }) :=
    .mapM_forall₂ fun a ha =>
      .bind (gives_writtenAttribute ds (hwritten a ha)) fun _ hn => .pure ⟨hwritten a ha, rfl, rfl, hn⟩
  refine .bind hgives fun slots hslots => ?_
  have hraw : slots.map (·.raw) = written.map some := by
    clear hwritten hgives
    induction hslots with
    | nil => rfl
    | cons h _ ih => rw [List.map_cons, List.map_cons, h.2.2.1, ih]
  have hholds : ∀ s ∈ slots, s.Holds ds := by
    intro s hs
    obtain ⟨a, _, ha, hname, hsraw, hkeeps⟩ := exists_of_forall₂ hslots hs
    rw [AttributeSlot.Holds, hsraw]
    exact ⟨ha, hname, hkeeps⟩
  have hof : SlotsOf ds written slots :=
    ⟨hholds, ⟨0, by simpa using hraw⟩, fun h => by rwa [(forall₂_keeps hholds hraw).2]⟩
  refine .bind (gives_dynamicSlots hof fun s hs => ?_) fun p hp => ?_
  · obtain ⟨a, _, _, _, hsraw, _⟩ := exists_of_forall₂ hslots hs
    simp [hsraw]
  · obtain ⟨slots, maps⟩ := p
    obtain ⟨hof, hset, hmaps⟩ := hp
    refine .bind (gives_translatedSlots hof) fun slots' hslots' => .pure ⟨?_, hslots'.1.namesOf maps⟩
    exact hslots'.1.attributesOf hmaps (fun name hname => hslots'.2.1 name (hset name hname)) hslots'.2.2

end Builder

section Compiling

variable {ε δ : Type} {g : ε → δ}
variable {ds : Directives}

theorem Operand.Fits.map {quote : Bytes} {o : Operand ε} (h : o.Fits quote) : (o.map g).Fits quote := by
  cases o with
  | literal _ | expr _ => exact h
  | interpolated source parts =>
    intro s hs
    obtain ⟨p, hp, heq⟩ := List.mem_map.1 hs
    cases p with
    | literal t =>
      cases heq
      exact h s hp
    | expr e => cases heq
  | isDefault _ | not _ | missing => exact h.elim

theorem Node.Keeps.map {a : RawAttribute} {n : Node ε} (h : n.Keeps ds a) : (n.map g).Keeps ds a := by
  cases h with
  | text hplain => exact .text hplain
  | @attr d hd =>
    have hinterpolated : ∀ source parts', d.value.map g = .interpolated source parts' →
        ∃ parts, d.value = .interpolated source parts := by
      cases d.value <;> simp [Operand.map]
    have hexpr : ∀ e', d.value.map g = .expr e' → ∃ e, d.value = .expr e := by
      cases d.value <;> simp [Operand.map]
    exact .attr ⟨hd.space, hd.name, hd.delimiters, hd.value.map, hd.written,
      fun source parts' h => (hinterpolated source parts' h).elim (hd.source source),
      fun e' h => (hexpr e' h).elim hd.set, hd.translated⟩

theorem AttributesOf.map {written : List RawAttribute} {attributes : List (Node ε)}
    (h : AttributesOf ds written attributes) : AttributesOf ds written (attributes.map (Node.map g)) where
  parts := by
    obtain ⟨kept, added, maps, rfl, hkept, hadded, hmaps⟩ := h.parts
    refine ⟨kept.map (Node.map g), added.map fun d => { d with value := d.value.map g }, maps.map g, ?_, ?_, ?_, ?_⟩
    · simp [Node.map, Function.comp_def]
    · exact List.forall₂_map_right_iff.2 (hkept.imp fun _ _ hkeeps => hkeeps.map)
    · rw [List.forall_mem_map]
      exact fun d hd => { hadded d hd with value := (hadded d hd).value.map }
    · rw [List.length_map, hmaps]
  sets name hname := by
    obtain ⟨d, e, hd, hfold, hvalue⟩ := h.sets name hname
    exact ⟨_, g e, List.mem_map.2 ⟨_, hd, rfl⟩, hfold, by rw [hvalue, Operand.map]⟩
  translates name hname := by
    obtain ⟨d, hd, hfold, htranslate⟩ := h.translates name hname
    exact ⟨_, List.mem_map.2 ⟨_, hd, rfl⟩, hfold, htranslate⟩

theorem Node.Bears.map {written : List RawAttribute} {name : Bytes} {n : Node ε} (h : n.Bears written name) :
    (n.map g).Bears written name := by
  cases h with
  | text ha hname => exact .text ha hname
  | attr hname => exact .attr hname

theorem NamesOf.map {written : List RawAttribute} {attributes : List (Node ε)} (h : NamesOf written attributes) :
    NamesOf written (attributes.map (Node.map g)) := by
  obtain ⟨names, named, maps, rfl, hbears, hdistinct⟩ := h
  refine ⟨names, named.map (Node.map g), maps.map g, by simp [Node.map, Function.comp_def], ?_, hdistinct⟩
  exact List.forall₂_map_right_iff.2 (hbears.imp fun _ _ hn => hn.map)

end Compiling

theorem legible_written (hparse : Markup.parse source filename = .ok tree)
    {head : ElementHead} (hhead : head ∈ Markup.elementHeads tree) {ds : Directives} {written : List RawAttribute}
    (hclassify : Directives.classify head.attributes [] = .ok (ds, written)) :
    ∀ a ∈ written, a.spelling.Legible :=
  (Builder.raw_of_classify (fun a => a.spelling.Legible) (Markup.legible_of_mem_elementHeads hparse hhead).2.2.2 (by simp)
    hclassify).2

/-- The directives and other attributes of an element with this start tag, or this one with a plain ending. -/
def Directives.Of (source filename lead tag tail : Bytes) (ds : Directives) (written : List RawAttribute) : Prop :=
  ∃ tree head, Markup.parse source filename = .ok tree ∧ head ∈ Markup.elementHeads tree ∧
    classify head.attributes [] = .ok (ds, written) ∧ lead = head.start.opening ∧ tag = head.name ∧
    (tail = head.start.ending ∨ tail = utf8 ">")

/-- The attributes are built for an element with these directives, or are the written ones of an element that has
failed. -/
def BuiltFrom (r : Expression.Registry) (ds : Directives) (written : List RawAttribute) (built : List (Node Expr)) :
    Prop :=
  (∃ st st', (Builder.attributes r ds written).run st = .ok (built, st')) ∨
    ds.has .onError = true ∧ built = written.map fun a => .text a.text

def Node.IsOfElement (r : Expression.Registry) (source filename : Bytes) : Node Expr → Prop
  | .startTag lead tag built tail =>
    ∃ ds written, Directives.Of source filename lead tag tail ds written ∧ BuiltFrom r ds written built
  | _ => True

theorem Builder.sound_isOfElement (r : Expression.Registry) (hparse : Markup.parse source filename = .ok tree) :
    Builder.Sound r (· ∈ Markup.elementHeads tree) (fun _ => True) (fun _ => True)
      (Node.IsOfElement r source filename) where
  unlocated _ := trivial
  compiling _ _ _ _ := trivial
  splitting _ _ _ _ := trivial
  values _ _ _ := trivial
  other {n} hn _ := by
    cases n with
    | startTag lead tag built tail => exact absurd rfl (hn lead tag built tail)
    | _ => trivial
  startTag {head ds written attributes st st'} tail hhead hclassify hrun htail :=
    ⟨ds, written, ⟨tree, head, hparse, hhead, hclassify, rfl, rfl, htail⟩, .inl ⟨st, st', hrun⟩⟩
  writtenTag {head ds written} tail hhead hclassify hhandler htail :=
    ⟨ds, written, ⟨tree, head, hparse, hhead, hclassify, rfl, rfl, htail⟩, .inr ⟨hhandler, rfl⟩⟩

theorem exists_element_of_startTag {r : Expression.Registry} {settings : Nat} {p : Program}
    (h : compileTemplate r filename source settings = .ok p) {lead tag tail : Bytes} {attributes : List (Node Compiled)}
    (hn : .startTag lead tag attributes tail ∈ p.main.all ∨
      ∃ m ∈ p.macros, .startTag lead tag attributes tail ∈ m.2.all) :
    ∃ ds written, Directives.Of source filename lead tag tail ds written ∧ ∃ (m : Module) (built : List (Node Expr)),
      BuiltFrom r ds written built ∧ attributes = built.map (Node.map (m.compiled r)) ∧
      ∀ n ∈ built, ∀ e ∈ n.reads, m.compileExpr r e = .ok (m.compiled r e) := by
  obtain ⟨m, n, hbuilt, hcompiles⟩ :=
    Builder.exists_good_of_compileTemplate (fun _ hparse => Builder.sound_isOfElement r hparse) h hn
  cases n <;> cases hcompiles.eq_map
  obtain ⟨ds, written, hof, hbuilt⟩ := hbuilt
  refine ⟨ds, written, hof, m, _, hbuilt, Node.mapAll_eq _ _, fun n hn e he => ?_⟩
  refine hcompiles.reads n (Node.all_subset_of_mem_parts hn (Node.mem_all_self ?_)) e he
  cases n <;> first | rfl | cases he

theorem BuiltFrom.of_element {r : Expression.Registry} {lead tag tail : Bytes} {ds : Directives}
    {written : List RawAttribute} {built : List (Node Expr)} (h : BuiltFrom r ds written built)
    (hof : Directives.Of source filename lead tag tail ds written) :
    (AttributesOf ds written built ∨ ds.has .onError = true ∧ built = written.map fun a => .text a.text) ∧
      NamesOf written built := by
  obtain ⟨tree, head, hparse, hhead, hclassify, _⟩ := hof
  rcases h with ⟨st, st', hrun⟩ | ⟨hhandler, rfl⟩
  · have hgives := Builder.gives_attributes (r := r) ds (legible_written hparse hhead hclassify)
    obtain ⟨hattributes, hnames⟩ := ((hgives st fun _ _ _ _ => trivial).1 _ hrun).1
    exact ⟨.inl hattributes, hnames⟩
  · refine ⟨.inr ⟨hhandler, rfl⟩, written.map (·.name.value), written.map fun a => .text a.text, [], by simp, ?_, id⟩
    rw [List.forall₂_map_left_iff, List.forall₂_map_right_iff, List.forall₂_same]
    exact fun a ha => .text ha rfl

/-- A start tag of a program is that of an element with these directives and written attributes: its attributes are built
from them, and compiled. -/
structure Directives.Make (r : Expression.Registry) (source filename lead tag : Bytes)
    (attributes : List (Node Compiled)) (tail : Bytes) (ds : Directives) (written : List RawAttribute) : Prop where
  element : Directives.Of source filename lead tag tail ds written
  attributesOf : AttributesOf ds written attributes ∨
    ds.has .onError = true ∧ attributes = written.map fun a => .text a.text
  built : ∃ (m : Module) (built : List (Node Expr)), BuiltFrom r ds written built ∧
    attributes = built.map (Node.map (m.compiled r))

theorem BuiltFrom.make {r : Expression.Registry} {lead tag tail : Bytes} {ds : Directives}
    {written : List RawAttribute} {built : List (Node Expr)} (h : BuiltFrom r ds written built)
    (hof : Directives.Of source filename lead tag tail ds written) (m : Module) :
    Directives.Make r source filename lead tag (built.map (Node.map (m.compiled r))) tail ds written where
  element := hof
  attributesOf := (h.of_element hof).1.imp AttributesOf.map fun h => ⟨h.1, by rw [h.2]; simp [Node.map]⟩
  built := ⟨m, built, h, rfl⟩

theorem originates_of_compileTemplate {r : Expression.Registry} {settings : Nat} {p : Program}
    (h : compileTemplate r filename source settings = .ok p) {n : Node Compiled}
    (hn : n ∈ p.main.all ∨ ∃ m ∈ p.macros, n ∈ m.2.all) : n.Originates source filename := by
  cases n with
  | startTag lead name attributes tail =>
    obtain ⟨ds, written, hof, m, built, hbuilt, rfl, _⟩ := exists_element_of_startTag h hn
    have hattributes := (hbuilt.make hof m).attributesOf
    obtain ⟨tree, head, hparse, hhead, hclassify, hlead, hname, htail⟩ := hof
    exact ⟨tree, head, ds, written, hparse, hhead, hclassify, hlead, hname, htail, hattributes⟩
  | _ => trivial

end PageTemplate
