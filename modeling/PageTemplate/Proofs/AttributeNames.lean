import PageTemplate.Proofs.AttributeSafety

/-!
Names of attributes in a start tag. No name is written twice, up to the case of ASCII letters, as long as the names in
the template differ and so do the keys of the mappings: values of directives take the places of written attributes, and
mappings leave out the names that have places. Two mappings with a key in common write it twice.
-/

namespace PageTemplate

open Markup (RawAttribute ElementHead Spelling)

variable {names : List Bytes}
variable {name : Bytes} {ds : Directives} {attributes : List (Node Compiled)}

/-- How often the name is among the names, up to the case of ASCII letters. -/
def occurrences (name : Bytes) (names : List Bytes) : Nat := (names.map Text.asciiLower).count (Text.asciiLower name)

@[simp] theorem occurrences_append (name : Bytes) (names names' : List Bytes) :
    occurrences name (names ++ names') = occurrences name names + occurrences name names' := by
  rw [occurrences, List.map_append, List.count_append]
  rfl

theorem occurrences_le_of_sublist {names' : List Bytes} (h : names.Sublist names') (name : Bytes) :
    occurrences name names ≤ occurrences name names' :=
  (h.map _).count_le _

theorem distinctNames_iff : DistinctNames names ↔ ∀ name, occurrences name names ≤ 1 := by
  rw [DistinctNames, List.nodup_iff_count_le_one]
  refine ⟨fun h name => h _, fun h a => ?_⟩
  by_cases ha : a ∈ names.map Text.asciiLower
  · obtain ⟨name, _, rfl⟩ := List.mem_map.1 ha
    exact h name
  · rw [List.count_eq_zero_of_not_mem ha]
    exact Nat.zero_le 1

/-- Of keys that are left out where a name is like them, only those remain that are no names. -/
theorem occurrences_append_filter_le (hnames : DistinctNames names) (keys : List Bytes) (name : Bytes) :
    occurrences name (names ++ keys.filter fun key => !(names.map Text.lower).contains (Text.lower key)) ≤
      max 1 (occurrences name keys) := by
  rw [occurrences_append]
  by_cases hmem : Text.asciiLower name ∈ names.map Text.asciiLower
  · have hnone : occurrences name (keys.filter fun key => !(names.map Text.lower).contains (Text.lower key)) = 0 := by
      refine List.count_eq_zero_of_not_mem fun hkey => ?_
      obtain ⟨key, hkey, hkeyName⟩ := List.mem_map.1 hkey
      obtain ⟨n, hn, hnName⟩ := List.mem_map.1 hmem
      have hshown := (List.mem_filter.1 hkey).2
      rw [Text.lower_eq_of_asciiLower_eq (hkeyName.trans hnName.symm)] at hshown
      simp [List.mem_map_of_mem hn] at hshown
    rw [hnone, Nat.add_zero]
    exact (distinctNames_iff.1 hnames name).trans (Nat.le_max_left _ _)
  · have hnone : occurrences name names = 0 := List.count_eq_zero_of_not_mem hmem
    rw [hnone, Nat.zero_add]
    exact (occurrences_le_of_sublist List.filter_sublist name).trans (Nat.le_max_right _ _)

/-! ### Rendering -/

namespace Render

open Run

variable {n : Node Compiled}

/-- What a node of a start tag comes to: written attributes, and the entries of a mapping. -/
structure TagPiece where
  spellings : List Spelling
  entries : Assoc Value := []

/-- A mapping writes entries whose names it does not leave out, in their order. -/
inductive WrittenAs (written : List RawAttribute) (events : List Event) : Node Compiled → TagPiece → Prop where
  | text {a : RawAttribute} : a ∈ written → WrittenAs written events (.text a.text) ⟨[a.spelling], []⟩
  | absent (d : DynamicAttribute Compiled) : WrittenAs written events (.attr d) ⟨[], []⟩
  | attr (d : DynamicAttribute Compiled) (w : Bytes) : WrittenAs written events (.attr d) ⟨[d.spelled w], []⟩
  | entries {e : Compiled} {exclude : List Bytes} {v : Value} {world : World} {p : TagPiece} :
      Gave events e v → mapEntries world v = .ok p.entries →
      (p.spellings.map (·.name)).Sublist
        ((p.entries.map (·.1)).filter fun name => !exclude.contains (Text.lower name)) →
      (∀ a ∈ p.spellings, ∃ w, a = Markup.entrySpelling a.name w) → WrittenAs written events (.attributeMap e exclude) p

variable {written : List RawAttribute}

theorem WrittenAs.mono {events events' : List Event} (hsub : events ⊆ events') {p : TagPiece}
    (h : WrittenAs written events n p) : WrittenAs written events' n p := by
  cases h with
  | text ha => exact .text ha
  | absent d => exact .absent d
  | attr d w => exact .attr d w
  | entries hgave hentries hnames has => exact .entries (hgave.mono hsub) hentries hnames has

/-- The attributes that are written for pieces, one after the other. -/
def spellings (ps : List TagPiece) : List Spelling := ps.flatMap (·.spellings)

/-- The keys of all the mappings among pieces. -/
def mappedKeys (ps : List TagPiece) : List Bytes := ps.flatMap fun p => p.entries.map (·.1)

section Steps

variable {st st' : State} {frame : Frame}
variable {v : Value} {exclude : List Bytes}

variable {call : Continuation} {ns : List (Node Compiled)}

/-- A node of a start tag is written under some of the names, or keys of its mapping that it does not leave out. -/
def Writes (written : List RawAttribute) (exclude : List Bytes) (call : Continuation) (frame : Frame)
    (n : Node Compiled) (names : List Bytes) : Prop :=
  ∀ st st', (node call frame n).run st = some (.ok (), st') →
    ∃ events p, Extends events (p.spellings.flatMap Spelling.text) st st' ∧ WrittenAs written events n p ∧
      (p.spellings.map (·.name)).Sublist
        (names ++ (p.entries.map (·.1)).filter fun name => !exclude.contains (Text.lower name))

theorem writes_attributeMap (e : Compiled) : Writes written exclude call frame (.attributeMap e exclude) [] := by
  intro st st' h
  unfold node at h
  obtain ⟨v, st₁, events, _, entries, hextends₁, hgave, hentries, hrun⟩ := exists_of_renderAttributeMap h
  obtain ⟨segments, hextends₂, hwritten, _⟩ := exists_of_writeEntries hrun
  exact ⟨_, ⟨_, entries⟩, hextends₁.trans hextends₂, .entries hgave hentries hwritten.names hwritten.spelled,
    hwritten.names⟩

theorem writes_of_bears (hn : n.Bears written name) (hspellable : n.Spellable) :
    Writes written exclude call frame n [name] := by
  intro st st' h
  unfold node at h
  cases hn with
  | @text a ha hname =>
    refine ⟨[], ⟨[a.spelling], []⟩, ?_, .text ha, ?_⟩
    · simpa using extends_write h
    · exact hname ▸ List.Sublist.refl _
  | @attr d hname =>
    obtain ⟨events, as, hextends, rfl | ⟨w, rfl⟩, _⟩ := writtenOnce hspellable h
    · exact ⟨events, ⟨[], []⟩, hextends, .absent d, List.nil_sublist _⟩
    · exact ⟨events, ⟨_, []⟩, hextends, .attr d w, hname ▸ List.Sublist.refl _⟩

theorem exists_pieces_of_writes {namess : List (List Bytes)}
    (hns : List.Forall₂ (Writes written exclude call frame) ns namess)
    (h : (nodeList call frame ns).run st = some (.ok (), st')) :
    ∃ events ps, Extends events ((spellings ps).flatMap Spelling.text) st st' ∧
      List.Forall₂ (WrittenAs written events) ns ps ∧ ∀ name, occurrences name ((spellings ps).map (·.name)) ≤
        occurrences name (namess.flatten ++ (mappedKeys ps).filter fun key => !exclude.contains (Text.lower key)) := by
  induction hns generalizing st with
  | nil =>
    rw [nodeList] at h
    cases h
    exact ⟨[], [], .refl _, .nil, fun _ => Nat.le_refl _⟩
  | cons hwrites _ ih =>
    rw [nodeList] at h
    obtain ⟨_, st₁, hn, hrest⟩ := run_bind_eq_ok h
    obtain ⟨events₁, p, hextends₁, hwritten₁, hsub⟩ := hwrites _ _ hn
    obtain ⟨events₂, ps, hextends₂, hwritten₂, hnames⟩ := ih hrest
    refine ⟨events₂ ++ events₁, p :: ps, ?_, .cons ?_ ?_, fun name => ?_⟩
    · simpa [spellings] using hextends₁.trans hextends₂
    · exact hwritten₁.mono (List.subset_append_right _ _)
    · exact hwritten₂.imp fun _ _ hp => hp.mono (List.subset_append_left _ _)
    · have hfirst := occurrences_le_of_sublist hsub name
      have hrest := hnames name
      simp only [spellings, mappedKeys, List.flatMap_cons, List.map_append, List.filter_append, List.flatten_cons,
        occurrences_append] at hfirst hrest ⊢
      omega

end Steps

/-- The nodes of a start tag are written in turn. No name is written more often than it is a key of mappings, or more
than once if it is none. -/
theorem exists_pieces (call : Continuation) {frame : Frame} {st st' : State}
    (hnames : NamesOf written attributes) (hspellable : ∀ n ∈ attributes, n.Spellable)
    (h : (nodeList call frame attributes).run st = some (.ok (), st')) :
    ∃ events ps, Extends events ((spellings ps).flatMap Spelling.text) st st' ∧
      List.Forall₂ (WrittenAs written events) attributes ps ∧
      (DistinctNames (written.map (·.name.value)) → ∀ name,
        occurrences name ((spellings ps).map (·.name)) ≤ max 1 (occurrences name (mappedKeys ps))) := by
  obtain ⟨names, named, maps, rfl, hbears, hdistinct⟩ := hnames
  have hwrites : List.Forall₂ (Writes written (names.map Text.lower) call frame)
      (named ++ maps.map (.attributeMap · (names.map Text.lower))) (names.map ([·]) ++ maps.map fun _ => []) := by
    refine List.rel_append (List.forall₂_map_right_iff.2 ?_)
      (List.forall₂_map_left_iff.2 (List.forall₂_map_right_iff.2 (List.forall₂_same.2 fun e _ => writes_attributeMap e)))
    exact ((List.forall₂_and_left _ _).2 ⟨fun n hn => hspellable n (List.mem_append_left _ hn), hbears.flip⟩).imp
      fun _ _ h => writes_of_bears h.2 h.1
  obtain ⟨events, ps, hextends, hpieces, hbound⟩ := exists_pieces_of_writes hwrites h
  refine ⟨events, ps, hextends, hpieces, fun hwritten name => ?_⟩
  have hflat : (names.map ([·]) ++ maps.map fun _ => []).flatten = names := by simp [← List.flatMap_def]
  exact (hflat ▸ hbound name).trans (occurrences_append_filter_le (hdistinct hwritten) _ name)

/-- A start tag is written with the attributes of its element in turn. If the names written in the template are
distinct, no name occurs more often than it is a key of mappings, or more than once if it is none: if the keys of all
mappings are distinct, so are the names, and the names that are read. -/
theorem start_tag_names_distinct {r : Expression.Registry} {filename source : Bytes} {settings : Nat} {p : Program}
    (hp : compileTemplate r filename source settings = .ok p) {lead name tail : Bytes}
    {attributes : List (Node Compiled)}
    (hn : .startTag lead name attributes tail ∈ p.main.all ∨
      ∃ m ∈ p.macros, .startTag lead name attributes tail ∈ m.2.all)
    (call : Continuation) (frame : Frame) {st st' : State}
    (hrun : (node call frame (.startTag lead name attributes tail)).run st = some (.ok (), st')) :
    ∃ ds written, Directives.Make r source filename lead name attributes tail ds written ∧
      ∃ events ps, st'.events = events ++ st.events ∧ List.Forall₂ (WrittenAs written events) attributes ps ∧
        st'.out.text = st.out.text ++ (lead ++ name ++ (spellings ps).flatMap Spelling.text ++ tail) ∧
        (DistinctNames (written.map (·.name.value)) →
          (∀ n, occurrences n ((spellings ps).map (·.name)) ≤ max 1 (occurrences n (mappedKeys ps))) ∧
          (DistinctNames (mappedKeys ps) →
            DistinctNames ((spellings ps).map (·.name)) ∧
            ((∀ a ∈ spellings ps, a.Legible) →
              (((spellings ps).flatMap Spelling.text).getLast? = some Byte.slash → tail.head? ≠ some Byte.greater) →
              ∀ filename', ∃ tok tag,
                Markup.tokenize (lead ++ name ++ (spellings ps).flatMap Spelling.text ++ tail) filename' = [tok] ∧
                Markup.Tag.ofToken? tok = some tag ∧ tag.attributes.map RawAttribute.spelling = spellings ps ∧
                DistinctNames (tag.attributes.map (·.name.value))))) := by
  have hspellable := (originates_of_compileTemplate hp hn).spellable
  obtain ⟨ds, written, hof, m, built, hbuilt, rfl, _⟩ := exists_element_of_startTag hp hn
  refine ⟨ds, written, hbuilt.make hof m, ?_⟩
  rw [node] at hrun
  obtain ⟨_, st₁, hstart, hrun⟩ := run_bind_eq_ok hrun
  obtain ⟨_, st₂, hattributes, hend⟩ := run_bind_eq_ok hrun
  obtain ⟨events, ps, hextends, hpieces, hbound⟩ := exists_pieces call (hbuilt.of_element hof).2.map hspellable hattributes
  have hwhole := ((extends_write hstart).trans hextends).trans (extends_write hend)
  refine ⟨events, ps, by simpa using hwhole.happened, hpieces, hwhole.written, fun hwritten => ⟨hbound hwritten, ?_⟩⟩
  intro hkeys
  have hdistinct : DistinctNames ((spellings ps).map (·.name)) := by
    refine distinctNames_iff.2 fun n => (hbound hwritten n).trans ?_
    exact Nat.max_le.2 ⟨Nat.le_refl 1, distinctNames_iff.1 hkeys n⟩
  refine ⟨hdistinct, fun hlegible hslash filename' => ?_⟩
  obtain ⟨tree, head, hparse, hhead, _, hlead, rfl, htail⟩ := hof
  obtain ⟨hopening, hheadName, hending, _⟩ := Markup.legible_of_mem_elementHeads hparse hhead
  obtain rfl : lead = utf8 "<" := hlead.trans hopening
  have hending : Markup.IsEnding tail := by
    rcases htail with rfl | rfl
    · exact hending
    · exact ⟨[], by simp, .inl rfl⟩
  obtain ⟨tok, tag, htokens, _, htag, _, hspelled, _⟩ :=
    Markup.tokenize_written hheadName hlegible hending hslash filename'
  refine ⟨tok, tag, htokens, htag, hspelled, ?_⟩
  rw [← hspelled, List.map_map] at hdistinct
  exact hdistinct

/-- The number of the expression that a mapping is the value of. -/
def mappingId? : Node Compiled → Option Nat
  | .attributeMap e _ => some e.id
  | _ => none

theorem mappedKeys_eq_of_gaveKeyed {key : Nat → Bytes} {events : List Event}
    {ps : List TagPiece} (h : List.Forall₂ (WrittenAs written events) attributes ps)
    (hgave : events.all (gaveKeyed key) = true) : mappedKeys ps = (attributes.filterMap mappingId?).map key := by
  have hentries : ∀ {e v world entries}, Gave events e v → mapEntries world v = .ok entries →
      entries.map (·.1) = [key e.id] := by
    intro e v world entries hv hentries
    rcases hv.eq_of_keyed hgave with ⟨s, rfl⟩ | ⟨s, rfl⟩
    · cases hentries
    · cases hentries
      simp [Assoc.sorted, Value.ofKey, Value.toText]
  induction h with
  | nil => rfl
  | cons hn _ ih =>
    cases hn with
    | text | absent | attr => exact ih
    | entries hv hp => exact congrArg₂ (· ++ ·) (hentries hv hp) ih

theorem start_tag_names_distinct_overlapping :
    let source := utf8 ("<a ID=\"0\" title=\"w\" tal:attributes=\"id x; alt y; m; n\"" ++
      " i18n:attributes=\"Title; lang\">t</a>")
    let st : State := { world := {}, vars := [(utf8 "x", .text (utf8 "1")), (utf8 "y", .text (utf8 "2")),
      (utf8 "m", .map .text .any [(.text (utf8 "Alt"), .text (utf8 "3"))]),
      (utf8 "n", .map .text .any [(.text (utf8 "rel"), .text (utf8 "4"))])] }
    ∃ p lead name attributes tail st' written events ps,
      compileTemplate (Expression.Registry.initial (utf8 "path") []) [] source 0 = .ok p ∧
      .startTag lead name attributes tail ∈ p.main.all ∧
      (node (toDepth 0) default (.startTag lead name attributes tail)).run st = some (.ok (), st') ∧
      st'.out.text = utf8 "<a ID=\"1\" title=\"w\" alt=\"2\" lang=\"\" rel=\"4\">" ∧
      DistinctNames (written.map (·.name.value)) ∧ DistinctNames (mappedKeys ps) ∧
      List.Forall₂ (WrittenAs written events) attributes ps ∧
      st'.out.text = lead ++ name ++ (spellings ps).flatMap Spelling.text ++ tail ∧
      DistinctNames ((spellings ps).map (·.name)) := by
  intro source st
  let key (id : Nat) : Bytes := if id == 2 then utf8 "Alt" else utf8 "rel"
  obtain ⟨p, lead, name, attributes, tail, st', hcompile, hn, hrun, hends⟩ := exists_run_startTag source st
    (fun attributes _ st' => DistinctNames ((attributes.filterMap mappingId?).map key) &&
      st'.events.all (gaveKeyed key) &&
      st'.out.text == utf8 "<a ID=\"1\" title=\"w\" alt=\"2\" lang=\"\" rel=\"4\">") (by decide +kernel)
  simp only [Bool.and_eq_true, beq_iff_eq, decide_eq_true_eq] at hends
  obtain ⟨⟨hmaps, hgave⟩, hout⟩ := hends
  have hheads : ((Markup.parse source []).toOption.all fun tree => (Markup.elementHeads tree).all fun head =>
      (Directives.classify head.attributes []).toOption.all fun c =>
        DistinctNames (c.2.map (·.name.value))) = true := by decide +kernel
  obtain ⟨ds, written, hmake, events, ps, hevents, hpieces, htext, hnames⟩ :=
    start_tag_names_distinct hcompile (.inl hn) (toDepth 0) default hrun
  obtain ⟨tree, head, hparse, hhead, hclassify, _⟩ := hmake.element
  obtain rfl : st'.events = events := by simpa [st] using hevents
  have hwritten : DistinctNames (written.map (·.name.value)) := by
    rw [hparse] at hheads
    have hhead := List.all_eq_true.1 hheads head hhead
    rw [hclassify] at hhead
    exact of_decide_eq_true hhead
  have hkeys : DistinctNames (mappedKeys ps) := by
    rw [mappedKeys_eq_of_gaveKeyed hpieces hgave]
    exact hmaps
  exact ⟨p, lead, name, attributes, tail, st', written, _, ps, hcompile, hn, hrun, hout, hwritten, hkeys, hpieces,
    htext, ((hnames hwritten).2 hkeys).1⟩

/-- Two mappings with a key in common write it twice. -/
theorem attribute_repeated_by_mappings :
    let render (source : String) (vars : Vars) : Option Bytes :=
      (compileTemplate (Expression.Registry.initial (utf8 "path") []) [] (utf8 source) 0).toOption.bind fun p =>
        ((renderEntry (toDepth 1) 0 0 [] []).run { world := { programs := [p], settings := [{}] }, vars }).map
          (·.2.out.text)
    let read (page : Option Bytes) : Option (List Bytes) :=
      page.bind fun text => (Markup.tokenize text []).head?.bind fun tok =>
        (Markup.Tag.ofToken? tok).map fun tag => tag.attributes.map (·.name.value)
    let page := render "<a tal:attributes=\"m; n\">t</a>"
      [(utf8 "m", .map .text .any [(.text (utf8 "id"), .text (utf8 "1"))]),
        (utf8 "n", .map .text .any [(.text (utf8 "id"), .text (utf8 "2"))])]
    page = some (utf8 "<a id=\"1\" id=\"2\">t</a>") ∧ read page = some [utf8 "id", utf8 "id"] ∧
      ¬ DistinctNames [utf8 "id", utf8 "id"] := by
  refine ⟨?_, ?_, ?_⟩ <;> decide +kernel

end Render

end PageTemplate
