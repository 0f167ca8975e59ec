import Mathlib.Data.List.Induction
import PageTemplate.Markup.Tree.Parser
import PageTemplate.Proofs.Markup.Tags

/-!
The element tree as the reader grows it. The reader keeps one flat list of nodes: a token adds a node at the end, or an
end tag moves the end of the list into the element that it closes. `Steps` says what a token does to the state of the
reader and `Grows` what it does to the list. `Reads.induction` and `parseTokens_induction` go from there to whole
inputs. The main statement is that reading loses nothing.
-/

namespace PageTemplate.Markup

variable {tokens : List Token} {nodes : List Node} {tok : Token} {tag : Tag} {st st' : TreeState}

@[simp] theorem serialize_append (ns ms : List Node) :
    serialize (ns ++ ms) = serialize ns ++ serialize ms := by
  induction ns with
  | nil => rfl
  | cons n ns ih => simp only [List.cons_append, serialize, ih, List.append_assoc]

@[simp] theorem elementHeads_append (ns ms : List Node) :
    elementHeads (ns ++ ms) = elementHeads ns ++ elementHeads ms := by
  induction ns with
  | nil => rfl
  | cons n ns ih => simp only [List.cons_append, elementHeads, ih, List.append_assoc]

mutual

/-- The tokens of a tree that are not tags, in document order. -/
def Node.texts : Node → List Token
  | .text t => [t]
  | .element _ children _ => textsOf children

/-- The tokens of a forest that are not tags, in document order. -/
def textsOf : List Node → List Token
  | [] => []
  | n :: ns => n.texts ++ textsOf ns

end

@[simp] theorem textsOf_append (ns ms : List Node) :
    textsOf (ns ++ ms) = textsOf ns ++ textsOf ms := by
  induction ns with
  | nil => rfl
  | cons n ns ih => simp only [List.cons_append, textsOf, ih, List.append_assoc]

/-- What a token does to the forest. An end tag closes an element of its name and makes the nodes after it its children.
-/
inductive Grows (tok : Token) : List Node → List Node → Prop where
  | text {nodes : List Node} (h : Tag.ofToken? tok = none) :
      Grows tok nodes (nodes ++ [.text tok])
  | element {nodes : List Node} {tag : Tag} (bindings : Bindings)
      (h : Tag.ofToken? tok = some tag) (hkind : tok.kind ≠ .endTag) :
      Grows tok nodes (nodes ++ [.element (ElementHead.ofTag bindings tag) [] none])
  | close {front inside : List Node} {head : ElementHead} {tag : Tag}
      (h : Tag.ofToken? tok = some tag) (hkind : tok.kind = .endTag)
      (hname : head.name = tag.name.value) :
      Grows tok (front ++ .element head [] none :: inside)
        (front ++ [.element head inside (some tag)])

theorem TreeState.finish_eq (st : TreeState) :
    st.finish = (st.nodes ++ st.opened.flatMap (·.abandon [])).reverse := by
  have habandon : ∀ (opened : List OpenElement) (nodes : List Node),
      opened.foldl (fun ns o => o.abandon ns) nodes = nodes ++ opened.flatMap (·.abandon []) := by
    intro opened
    induction opened with
    | nil => simp
    | cons o opened ih =>
      intro nodes
      simp only [List.foldl_cons, List.flatMap_cons, ih]
      simp only [OpenElement.abandon, List.nil_append, List.append_assoc]
  simp only [finish, habandon]

abbrev OpenElement.name (o : OpenElement) : Bytes := o.head.name

/-- An end tag of this name may pass over the element: it has another name and is void. -/
def Passable (name other : Bytes) : Prop := other ≠ name ∧ isVoidElement other = true

/-- What a token that is accepted does to the state of the reader. -/
inductive Steps (tok : Token) : TreeState → TreeState → Prop where
  | text {st : TreeState} : Tag.ofToken? tok = none → Steps tok st { st with nodes := .text tok :: st.nodes }
  | empty {st : TreeState} {tag : Tag} : Tag.ofToken? tok = some tag → tok.kind = .emptyTag →
      Steps tok st { st with
        nodes := .element (ElementHead.ofTag (st.bindings.declare tag.attributes) tag) [] none :: st.nodes }
  | start {st : TreeState} {tag : Tag} : Tag.ofToken? tok = some tag → tok.kind = .startTag →
      Steps tok st
        ⟨⟨ElementHead.ofTag (st.bindings.declare tag.attributes) tag, st.nodes, st.bindings⟩ :: st.opened, [],
          st.bindings.declare tag.attributes⟩
  | stop {passed outer : List OpenElement} {o : OpenElement} {nodes : List Node} {bindings : Bindings} {tag : Tag} :
      Tag.ofToken? tok = some tag → tok.kind = .endTag → (∀ p ∈ passed, Passable tag.name.value p.name) →
      o.name = tag.name.value →
      Steps tok ⟨passed ++ o :: outer, nodes, bindings⟩
        ⟨outer, .element o.head (TreeState.finish ⟨passed, nodes, bindings⟩) (some tag) :: o.before, o.outer⟩

theorem exists_of_closeElement? {opened : List OpenElement} {inside : List Node} (bindings : Bindings)
    (h : closeElement? tag opened inside = some st) :
    ∃ passed o outer, opened = passed ++ o :: outer ∧ (∀ p ∈ passed, Passable tag.name.value p.name) ∧
      o.name = tag.name.value ∧
      st = ⟨outer, .element o.head (TreeState.finish ⟨passed, inside, bindings⟩) (some tag) :: o.before, o.outer⟩ := by
  induction opened generalizing inside with
  | nil => cases h
  | cons o opened ih =>
    rw [closeElement?] at h
    split at h
    · next hname =>
      cases h
      exact ⟨[], o, opened, rfl, by simp, hname, rfl⟩
    · next hname =>
      split at h
      · next hvoid =>
        obtain ⟨passed, o', outer, rfl, hpassed, hclosed, rfl⟩ := ih h
        exact ⟨o :: passed, o', outer, rfl, List.forall_mem_cons.2 ⟨⟨hname, hvoid⟩, hpassed⟩, hclosed, rfl⟩
      · cases h

theorem kind_of_ofToken? (h : Tag.ofToken? tok = some tag) :
    tok.kind = .startTag ∨ tok.kind = .emptyTag ∨ tok.kind = .endTag := by
  obtain ⟨opening, hkind, _⟩ := Option.bind_eq_some_iff.1 h
  split at hkind
  · next hk => exact .inl hk
  · next hk => exact .inr (.inl hk)
  · next hk => exact .inr (.inr hk)
  · cases hkind

theorem TreeState.steps_of_step (h : st.step tok = .ok st') :
    Steps tok st st' := by
  simp only [step] at h
  split at h
  · next hnone =>
    cases h
    exact .text hnone
  · next tag htag =>
    split at h
    · next hkind =>
      split at h
      · next hclose =>
        cases h
        obtain ⟨opened, nodes, bindings⟩ := st
        obtain ⟨passed, o, outer, rfl, hpassed, hname, rfl⟩ := exists_of_closeElement? bindings hclose
        exact .stop htag hkind hpassed hname
      · cases h
    · next hkind =>
      cases h
      exact .empty htag hkind
    · next hend hempty =>
      cases h
      refine .start htag ?_
      rcases kind_of_ofToken? htag with hkind | hkind | hkind
      · exact hkind
      · exact absurd hkind hempty
      · exact absurd hkind hend

theorem Steps.grows (h : Steps tok st st') : Grows tok st.finish st'.finish := by
  cases h with
  | text hnone =>
    simp only [TreeState.finish_eq, List.cons_append, List.reverse_cons]
    exact .text hnone
  | empty htag hkind =>
    simp only [TreeState.finish_eq, List.cons_append, List.reverse_cons]
    exact .element _ htag (by simp [hkind])
  | start htag hkind =>
    simp only [TreeState.finish_eq, OpenElement.abandon, List.flatMap_cons, List.nil_append, List.cons_append,
      List.reverse_cons]
    exact .element _ htag (by simp [hkind])
  | stop htag hkind _ hname =>
    -- What was read after the element becomes its children, past void elements.
    simp only [TreeState.finish_eq, OpenElement.abandon, List.flatMap_append, List.flatMap_cons, List.nil_append,
      List.cons_append, ← List.append_assoc, List.reverse_append, List.reverse_cons]
    rw [List.append_assoc, List.append_assoc _ [_], List.singleton_append]
    exact .close htag hkind hname

/-- The reader comes to a state when it has read the tokens. -/
def Reads (tokens : List Token) (st : TreeState) : Prop := tokens.foldlM TreeState.step {} = .ok st

theorem reads_append_singleton {seen : List Token} :
    Reads (seen ++ [tok]) st' ↔ ∃ st, Reads seen st ∧ st.step tok = .ok st' := by
  unfold Reads
  rw [List.foldlM_append]
  cases seen.foldlM TreeState.step {} with
  | error f => simp [bind, Except.bind]
  | ok st =>
    simp only [List.foldlM_cons, List.foldlM_nil, bind_pure, Except.ok.injEq, exists_eq_left']
    rfl

theorem Reads.induction {motive : List Token → TreeState → Prop} (nil : motive [] {})
    (step : ∀ seen tok st st', motive seen st → Steps tok st st' → motive (seen ++ [tok]) st')
    {tokens : List Token} {st : TreeState} (h : Reads tokens st) : motive tokens st := by
  induction tokens using List.reverseRecOn generalizing st with
  | nil =>
    cases h
    exact nil
  | append_singleton seen tok ih =>
    obtain ⟨before, hseen, hstep⟩ := reads_append_singleton.1 h
    exact step seen tok before st (ih hseen) (TreeState.steps_of_step hstep)

theorem parseTokens_eq_ok_iff :
    parseTokens tokens = .ok nodes ↔ ∃ st, Reads tokens st ∧ nodes = st.finish := by
  unfold parseTokens Reads
  cases tokens.foldlM TreeState.step {} with
  | error f => simp [Except.map]
  | ok st => simp [Except.map, eq_comm]

theorem parseTokens_induction (h : parseTokens tokens = .ok nodes) {motive : List Token → List Node → Prop}
    (nil : motive [] [])
    (grow : ∀ seen tok before after, tok ∈ tokens → motive seen before → Grows tok before after → motive (seen ++ [tok])
      after) :
    motive tokens nodes := by
  obtain ⟨st, hst, rfl⟩ := parseTokens_eq_ok_iff.1 h
  refine hst.induction (motive := fun seen st => seen ⊆ tokens → motive seen st.finish) (fun _ => nil) ?_
    (List.Subset.refl _)
  intro seen tok before after ih hstep hseen
  obtain ⟨hseen, htok⟩ := List.append_subset.1 hseen
  exact grow seen tok _ _ (htok List.mem_cons_self) (ih hseen) hstep.grows

theorem serialize_of_parseTokens (h : parseTokens tokens = .ok nodes)
    (htext : ∀ tok ∈ tokens, ∀ tag, Tag.ofToken? tok = some tag → tag.text = tok.value) :
    serialize nodes = tokens.flatMap (·.value) := by
  refine parseTokens_induction h
    (motive := fun seen nodes => serialize nodes = seen.flatMap (·.value)) rfl ?_
  intro seen tok before after hmem hbefore hgrows
  rw [List.flatMap_append, ← hbefore]
  cases hgrows with
  | text hnone => simp [serialize, Node.source]
  | element bindings htag hkind =>
    simp [serialize, Node.source, ElementHead.ofTag, htext tok hmem _ htag]
  | close htag hkind hname =>
    simp [serialize, Node.source, htext tok hmem _ htag]

theorem serialize_of_parse {source filename : Bytes} (h : parse source filename = .ok nodes) :
    serialize nodes = source := by
  have htokens := serialize_of_parseTokens h fun tok hmem tag => Tag.text_of_mem_tokenize hmem
  rw [htokens, flatMap_value_tokenize]

theorem mem_of_mem_textsOf (h : parseTokens tokens = .ok nodes) {t : Token} (ht : t ∈ textsOf nodes) : t ∈ tokens := by
  revert t
  apply parseTokens_induction h
  · simp [textsOf]
  intro seen tok before after _ hbefore hgrows t ht
  rw [List.mem_append]
  cases hgrows with
  | text hnone =>
    simp only [textsOf_append, textsOf, Node.texts, List.mem_append, List.append_nil] at ht
    exact ht.imp_left hbefore
  | element bindings htag hkind =>
    simp only [textsOf_append, textsOf, Node.texts, List.append_nil] at ht
    exact .inl (hbefore ht)
  | close htag hkind hname =>
    simp only [textsOf_append, textsOf, Node.texts, List.append_nil, List.nil_append] at ht hbefore
    exact .inl (hbefore ht)

theorem ofTag_of_mem_elementHeads (h : parseTokens tokens = .ok nodes) {head : ElementHead}
    (hhead : head ∈ elementHeads nodes) :
    ∃ tok ∈ tokens, tok.kind ≠ .endTag ∧ ∃ tag bindings,
      Tag.ofToken? tok = some tag ∧ head = ElementHead.ofTag bindings tag := by
  revert head
  apply parseTokens_induction h
  · simp [elementHeads]
  intro seen tok before after _ hbefore hgrows head hhead
  simp only [List.mem_append, or_and_right, exists_or]
  cases hgrows with
  | text hnone =>
    simp only [elementHeads_append, elementHeads, Node.heads, List.append_nil] at hhead
    exact .inl (hbefore hhead)
  | @element _ tag bindings htag hkind =>
    simp only [elementHeads_append, elementHeads, Node.heads, List.append_nil, List.mem_append,
      List.mem_singleton] at hhead
    refine hhead.imp hbefore fun hhead => ?_
    exact ⟨tok, List.mem_cons_self, hkind, tag, bindings, htag, hhead⟩
  | close htag hkind hname =>
    simp only [elementHeads_append, elementHeads, Node.heads, List.append_nil, List.nil_append,
      List.cons_append] at hhead hbefore
    exact .inl (hbefore hhead)

/-- Reading loses nothing. The tree of an accepted source is written as that source, and each tag read off a token is
written as the token. -/
theorem parse_lossless (source filename : Bytes) :
    (∀ nodes, parse source filename = .ok nodes → serialize nodes = source) ∧
      ∀ tok ∈ tokenize source filename, ∀ tag,
        Tag.ofToken? tok = some tag → tag.text = tok.value :=
  ⟨fun _ h => serialize_of_parse h, fun _ hmem _ h => Tag.text_of_mem_tokenize hmem h⟩

theorem parse_lossless_odd_spacing :
    let source := utf8 "<p a = 'x'\tb c=d ><br>1 < 2</p ><hr/>"
    (∃ nodes, parse source [] = .ok nodes ∧ serialize nodes = source) ∧
      ∃ tok ∈ tokenize source [], ∃ tag, Tag.ofToken? tok = some tag ∧ tag.text = tok.value := by
  intro source
  obtain ⟨nodes, hnodes⟩ : ∃ nodes, parse source [] = .ok nodes := exists_eq_ok (by decide +kernel)
  let tok : Token := ⟨.startTag, utf8 "<p a = 'x'\tb c=d >", 0, source, []⟩
  have hmem : tok ∈ tokenize source [] := by decide +kernel
  obtain ⟨tag, htag⟩ : ∃ tag, Tag.ofToken? tok = some tag :=
    Option.isSome_iff_exists.1 (by decide +kernel)
  exact ⟨⟨nodes, hnodes, (parse_lossless source []).1 nodes hnodes⟩,
    tok, hmem, tag, htag, (parse_lossless source []).2 tok hmem tag htag⟩

end PageTemplate.Markup
