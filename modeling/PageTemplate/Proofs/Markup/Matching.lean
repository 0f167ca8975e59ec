import PageTemplate.Proofs.Markup.Tree

/-!
Start tags and end tags. The reader works on a flat list of tokens with a stack of open elements, and the tree is
decided late: an end tag gives an element its children, and void elements that it passes over, like all that is open at
the end, stay without any. The main statement separates the accepted inputs from the others, and says how the tags of
an accepted one are matched.
-/

namespace PageTemplate.Markup

variable {tag : Tag} {st st' : TreeState} {tok : Token} {tokens : List Token} {nodes : List Node}
variable {ns : List Node} {opened : List Bytes} {f : Failure}

mutual

/-- A node and all nodes below it, in document order. -/
def Node.all : Node → List Node
  | .text t => [.text t]
  | .element head children stop => .element head children stop :: allNodes children

def allNodes : List Node → List Node
  | [] => []
  | n :: ns => n.all ++ allNodes ns

end

theorem mem_allNodes {m : Node} : m ∈ allNodes ns ↔ ∃ n ∈ ns, m ∈ n.all := by
  induction ns with
  | nil => simp [allNodes]
  | cons n ns ih => simp [allNodes, ih]

mutual

theorem Node.eq_or_parent_of_mem_all {m : Node} : ∀ {n : Node}, m ∈ n.all →
    m = n ∨ ∃ head children stop, .element head children stop ∈ n.all ∧ m ∈ children
  | .text _, h => .inl (List.mem_singleton.1 h)
  | .element head children stop, h => by
    rcases List.mem_cons.1 h with rfl | h
    · exact .inl rfl
    · rcases mem_or_parent_of_mem_allNodes h with hm | ⟨head', children', stop', hparent, hm⟩
      · exact .inr ⟨head, children, stop, List.mem_cons_self, hm⟩
      · exact .inr ⟨head', children', stop', List.mem_cons_of_mem _ hparent, hm⟩

theorem mem_or_parent_of_mem_allNodes {m : Node} : ∀ {ns : List Node}, m ∈ allNodes ns →
    m ∈ ns ∨ ∃ head children stop, .element head children stop ∈ allNodes ns ∧ m ∈ children
  | [], h => by simp [allNodes] at h
  | n :: ns, h => by
    rcases List.mem_append.1 h with h | h
    · rcases Node.eq_or_parent_of_mem_all h with rfl | ⟨head, children, stop, hparent, hm⟩
      · exact .inl List.mem_cons_self
      · exact .inr ⟨head, children, stop, List.mem_append_left _ hparent, hm⟩
    · rcases mem_or_parent_of_mem_allNodes h with hm | ⟨head, children, stop, hparent, hm⟩
      · exact .inl (List.mem_cons_of_mem _ hm)
      · exact .inr ⟨head, children, stop, List.mem_append_right _ hparent, hm⟩

end

mutual

theorem Node.mem_all_trans {m : Node} {head : ElementHead} {children : List Node} {stop : Option Tag}
    (hm : m ∈ allNodes children) : ∀ {n : Node}, .element head children stop ∈ n.all → m ∈ n.all
  | .text _, h => by simp [Node.all] at h
  | .element _ _ _, h => by
    rcases List.mem_cons.1 h with heq | h
    · cases heq
      exact List.mem_cons_of_mem _ hm
    · exact List.mem_cons_of_mem _ (mem_allNodes_trans hm h)

theorem mem_allNodes_trans {m : Node} {head : ElementHead} {children : List Node} {stop : Option Tag}
    (hm : m ∈ allNodes children) : ∀ {ns : List Node}, .element head children stop ∈ allNodes ns → m ∈ allNodes ns
  | [], h => by simp [allNodes] at h
  | _ :: _, h => by
    rcases List.mem_append.1 h with h | h
    · exact List.mem_append_left _ (Node.mem_all_trans hm h)
    · exact List.mem_append_right _ (mem_allNodes_trans hm h)

end

/-- A piece of a document: a tag in its parts, or a token that is none. -/
inductive Piece where
  | text (token : Token)
  | start (tag : Tag)
  | stop (tag : Tag)
  deriving DecidableEq, Repr

/-- What a token is for the reader. -/
def Piece.ofToken (tok : Token) : Piece :=
  match Tag.ofToken? tok with
  | none => .text tok
  | some tag => if tok.kind = .endTag then .stop tag else .start tag

mutual

/-- The pieces of a node in document order. -/
def Node.pieces : Node → List Piece
  | .text t => [.text t]
  | .element head children stop => .start head.start :: (piecesOf children ++ stop.toList.map .stop)

def piecesOf : List Node → List Piece
  | [] => []
  | n :: ns => n.pieces ++ piecesOf ns

end

@[simp] theorem piecesOf_append (ns ms : List Node) : piecesOf (ns ++ ms) = piecesOf ns ++ piecesOf ms := by
  induction ns with
  | nil => rfl
  | cons n ns ih => simp only [List.cons_append, piecesOf, ih, List.append_assoc]

/-! ### What a token does -/

/-- An end tag of the name closes none of the open elements, innermost first: before any of that name stands another
that is not void. -/
def Unmatched (name : Bytes) (opened : List Bytes) : Prop :=
  ∀ inner outer, opened = inner ++ name :: outer → ∃ n ∈ inner, n ≠ name ∧ isVoidElement n = false

theorem unmatched_cons {name n : Bytes} :
    Unmatched name (n :: opened) ↔ n ≠ name ∧ (isVoidElement n = false ∨ Unmatched name opened) := by
  constructor
  · intro h
    have hne : n ≠ name := by
      rintro rfl
      obtain ⟨m, hm, _⟩ := h [] opened rfl
      simp at hm
    refine ⟨hne, ?_⟩
    by_cases hvoid : isVoidElement n = false
    · exact .inl hvoid
    · refine .inr fun inner outer heq => ?_
      obtain ⟨m, hm, hother, hsolid⟩ := h (n :: inner) outer (by rw [heq, List.cons_append])
      rcases List.mem_cons.1 hm with rfl | hm
      · exact absurd hsolid hvoid
      · exact ⟨m, hm, hother, hsolid⟩
  · rintro ⟨hne, h⟩ inner outer heq
    rcases List.cons_eq_append_iff.1 heq with ⟨rfl, hhead⟩ | ⟨inner, rfl, hrest⟩
    · exact absurd (List.cons.inj hhead).1.symm hne
    · rcases h with hsolid | h
      · exact ⟨n, List.mem_cons_self, hne, hsolid⟩
      · obtain ⟨m, hm, hm'⟩ := h inner outer hrest
        exact ⟨m, List.mem_cons_of_mem _ hm, hm'⟩

theorem closeElement?_eq_none_iff {opened : List OpenElement} (inside : List Node) :
    closeElement? tag opened inside = none ↔ Unmatched tag.name.value (opened.map (·.name)) := by
  induction opened generalizing inside with
  | nil => simp [closeElement?, Unmatched]
  | cons o opened ih =>
    rw [List.map_cons, unmatched_cons, closeElement?]
    split
    · next hname => simp [hname]
    · next hname =>
      split
      · next hvoid => simp [ih, hname, hvoid]
      · next hvoid => simp [hname, hvoid]

/-- The only tokens that are refused are end tags that close none of the open elements. -/
theorem TreeState.step_eq_error_iff :
    st.step tok = .error f ↔ tok.kind = .endTag ∧ (∃ tag, Tag.ofToken? tok = some tag ∧
      Unmatched tag.name.value (st.opened.map (·.name))) ∧ f = tok.fault .parse (utf8 "Unexpected end tag") := by
  unfold step
  cases htag : Tag.ofToken? tok with
  | none => simp
  | some tag =>
    cases hkind : tok.kind with
    | endTag =>
      cases hclose : closeElement? tag st.opened st.nodes with
      | none => simp [← closeElement?_eq_none_iff st.nodes, hclose, eq_comm]
      | some st' => simp [← closeElement?_eq_none_iff st.nodes, hclose]
    | _ => simp

theorem parseTokens_eq_error_iff :
    parseTokens tokens = .error f ↔
      ∃ seen tok rest st, tokens = seen ++ tok :: rest ∧ Reads seen st ∧ st.step tok = .error f := by
  have hfold : ∀ start : TreeState, tokens.foldlM TreeState.step start = .error f ↔
      ∃ seen tok rest st, tokens = seen ++ tok :: rest ∧ seen.foldlM TreeState.step start = .ok st ∧
        st.step tok = .error f := by
    induction tokens with
    | nil => simp [pure, Except.pure]
    | cons t ts ih =>
      intro start
      rw [List.foldlM_cons]
      constructor
      · intro h
        cases hstep : start.step t with
        | error g =>
          rw [hstep] at h
          cases h
          exact ⟨[], t, ts, start, rfl, rfl, hstep⟩
        | ok st =>
          rw [hstep] at h
          obtain ⟨seen, tok, rest, st', rfl, hseen, htok⟩ := (ih st).1 h
          refine ⟨t :: seen, tok, rest, st', rfl, ?_, htok⟩
          rw [List.foldlM_cons, hstep]
          exact hseen
      · rintro ⟨seen, tok, rest, st, heq, hseen, htok⟩
        cases seen with
        | nil =>
          cases hseen
          cases heq
          rw [htok]
          rfl
        | cons t' seen =>
          obtain ⟨rfl, rfl⟩ := List.cons.inj heq
          rw [List.foldlM_cons] at hseen
          cases hstep : start.step t with
          | error g =>
            rw [hstep] at hseen
            cases hseen
          | ok middle =>
            rw [hstep] at hseen
            exact (ih middle).2 ⟨seen, tok, rest, st, rfl, hseen, htok⟩
  have herror : parseTokens tokens = .error f ↔ tokens.foldlM TreeState.step {} = .error f := by
    unfold parseTokens
    cases tokens.foldlM TreeState.step {} <;> simp [Except.map]
  exact herror.trans (hfold {})

/-- The names of the open elements, innermost first. A start tag opens one. An end tag closes the innermost of its name
and gives up those inside, which must be void. -/
inductive LeavesOpen : List Token → List Bytes → Prop where
  | nothing : LeavesOpen [] []
  | beside {seen : List Token} {opened : List Bytes} {tok : Token} : LeavesOpen seen opened →
      Tag.ofToken? tok = none ∨ tok.kind = .emptyTag → LeavesOpen (seen ++ [tok]) opened
  | start {seen : List Token} {opened : List Bytes} {tok : Token} {tag : Tag} : LeavesOpen seen opened →
      Tag.ofToken? tok = some tag → tok.kind = .startTag → LeavesOpen (seen ++ [tok]) (tag.name.value :: opened)
  | stop {seen : List Token} {passed outer : List Bytes} {tok : Token} {tag : Tag} :
      LeavesOpen seen (passed ++ tag.name.value :: outer) → Tag.ofToken? tok = some tag → tok.kind = .endTag →
      (∀ n ∈ passed, Passable tag.name.value n) → LeavesOpen (seen ++ [tok]) outer

theorem Reads.leavesOpen (h : Reads tokens st) :
    LeavesOpen tokens (st.opened.map (·.name)) := by
  refine Reads.induction (motive := fun seen st => LeavesOpen seen (st.opened.map (·.name))) .nothing ?_ h
  intro seen tok st st' hst hstep
  cases hstep with
  | text hnone => exact .beside hst (.inl hnone)
  | empty htag hkind => exact .beside hst (.inr hkind)
  | start htag hkind => exact .start hst htag hkind
  | stop htag hkind hpassed hname =>
    refine .stop ?_ htag hkind (List.forall_mem_map.2 hpassed)
    simpa [hname] using hst

theorem append_cons_inj_of_not_mem {α : Type} {x : α} {front front' back back' : List α} (h : x ∉ front)
    (h' : x ∉ front') (heq : front ++ x :: back = front' ++ x :: back') : front = front' ∧ back = back' := by
  have hfree : ∀ {rest back back' : List α}, x ∉ rest → x :: back = rest ++ x :: back' → rest = [] ∧ back = back' := by
    intro rest back back' hrest heq
    cases rest with
    | nil => exact ⟨rfl, (List.cons.inj heq).2⟩
    | cons y rest => exact absurd ((List.cons.inj heq).1 ▸ List.mem_cons_self) hrest
  rcases List.append_eq_append_iff.1 heq with ⟨rest, rfl, hrest⟩ | ⟨rest, rfl, hrest⟩
  · obtain ⟨rfl, hback⟩ := hfree (fun hx => h' (List.mem_append_right _ hx)) hrest
    exact ⟨(List.append_nil _).symm, hback⟩
  · obtain ⟨rfl, hback⟩ := hfree (fun hx => h (List.mem_append_right _ hx)) hrest
    exact ⟨List.append_nil _, hback.symm⟩

theorem TreeState.exists_steps (st : TreeState) (tok : Token) (h : tok.kind = .endTag → ∀ tag,
      Tag.ofToken? tok = some tag → ¬ Unmatched tag.name.value (st.opened.map (·.name))) :
    ∃ st', st.step tok = .ok st' ∧ Steps tok st st' := by
  cases hstep : st.step tok with
  | ok st' => exact ⟨st', rfl, steps_of_step hstep⟩
  | error f =>
    obtain ⟨hkind, ⟨tag, htag, hunmatched⟩, _⟩ := step_eq_error_iff.1 hstep
    exact absurd hunmatched (h hkind tag htag)

theorem LeavesOpen.reads (h : LeavesOpen tokens opened) :
    ∃ st, Reads tokens st ∧ st.opened.map (·.name) = opened := by
  induction h with
  | nothing => exact ⟨{}, rfl, rfl⟩
  | @beside seen opened tok _ hbeside ih =>
    obtain ⟨st, hst, rfl⟩ := ih
    obtain ⟨st', hstep, hsteps⟩ := st.exists_steps tok fun hkind tag htag => by simp_all
    refine ⟨st', reads_append_singleton.2 ⟨st, hst, hstep⟩, ?_⟩
    cases hsteps with
    | text _ | empty _ _ => rfl
    | start htag hkind => simp_all
    | stop htag hkind _ _ => simp_all
  | @start seen opened tok tag _ htag hkind ih =>
    obtain ⟨st, hst, rfl⟩ := ih
    obtain ⟨st', hstep, hsteps⟩ := st.exists_steps tok fun hend => by simp_all
    refine ⟨st', reads_append_singleton.2 ⟨st, hst, hstep⟩, ?_⟩
    cases hsteps with
    | text hnone => simp_all
    | empty _ hempty => simp_all
    | start htag' _ =>
      rw [htag] at htag'
      cases htag'
      rfl
    | stop _ hend _ _ => simp_all
  | @stop seen passed outer tok tag _ htag hkind hpassed ih =>
    obtain ⟨st, hst, hopened⟩ := ih
    have hmatched : ¬ Unmatched tag.name.value (st.opened.map (·.name)) := by
      intro hunmatched
      obtain ⟨n, hn, _, hsolid⟩ := hunmatched passed outer hopened
      simp [(hpassed n hn).2] at hsolid
    obtain ⟨st', hstep, hsteps⟩ := st.exists_steps tok fun _ tag' htag' => by
      rw [htag] at htag'
      cases htag'
      exact hmatched
    refine ⟨st', reads_append_singleton.2 ⟨st, hst, hstep⟩, ?_⟩
    cases hsteps with
    | text hnone => simp_all
    | empty _ hempty => simp_all
    | start _ hstart => simp_all
    | @stop passed' outer' o nodes bindings tag' htag' _ hpassed' hname =>
      rw [htag] at htag'
      cases htag'
      rw [List.map_append, List.map_cons, hname] at hopened
      refine (append_cons_inj_of_not_mem ?_ ?_ hopened).2
      · intro hmem
        obtain ⟨p, hp, hp'⟩ := List.mem_map.1 hmem
        exact (hpassed' p hp).1 hp'
      · exact fun hmem => (hpassed _ hmem).1 rfl

/-! ### The tree -/

/-- The node is an element that has no end tag and was not written as an empty tag. -/
def Node.IsUnclosed : Node → Prop
  | .element head _ none => head.start.token.kind ≠ .emptyTag
  | _ => False

/-- The tags of a node fit: an element with an end tag has its name there too, and its unclosed children may be passed
over. One without has no children. -/
def Node.IsMatched : Node → Prop
  | .text _ => True
  | .element _ children none => children = []
  | .element head children (some stop) => head.name = stop.name.value ∧
      ∀ head' children', .element head' children' none ∈ children → head'.start.token.kind ≠ .emptyTag →
        Passable head.name head'.name

/-- The node is finished: all tags below it fit, and it is not unclosed itself. -/
structure Node.IsSettled (n : Node) : Prop where
  matched : ∀ m ∈ n.all, m.IsMatched
  closed : ¬ n.IsUnclosed

/-- The nodes that the reader has put beside open elements are finished. -/
structure TreeState.IsSettled (st : TreeState) : Prop where
  nodes : ∀ n ∈ st.nodes, n.IsSettled
  before : ∀ o ∈ st.opened, ∀ n ∈ o.before, n.IsSettled

theorem TreeState.mem_finish {n : Node} :
    n ∈ st.finish ↔ n ∈ st.nodes ∨ ∃ o ∈ st.opened, n = .element o.head [] none ∨ n ∈ o.before := by
  simp [finish_eq, OpenElement.abandon, or_comm]

theorem TreeState.IsSettled.matched_finish (h : st.IsSettled) :
    ∀ m ∈ allNodes st.finish, m.IsMatched := by
  intro m hm
  obtain ⟨n, hn, hm⟩ := mem_allNodes.1 hm
  rcases mem_finish.1 hn with hn | ⟨o, ho, rfl | hn⟩
  · exact (h.nodes n hn).matched m hm
  · simp only [Node.all, allNodes, List.mem_singleton] at hm
    rw [hm]
    rfl
  · exact (h.before o ho n hn).matched m hm

theorem token_of_ofToken? (h : Tag.ofToken? tok = some tag) : tag.token = tok := by
  obtain ⟨opening, _, h⟩ := Option.bind_eq_some_iff.1 h
  dsimp only at h
  split at h
  · cases h
  · obtain ⟨r, _, rfl⟩ := Option.map_eq_some_iff.1 h
    rfl

theorem Steps.isSettled (hstep : Steps tok st st') (h : st.IsSettled) :
    st'.IsSettled := by
  cases hstep with
  | text _ =>
    refine ⟨List.forall_mem_cons.2 ⟨⟨?_, id⟩, h.nodes⟩, h.before⟩
    simp [Node.all, Node.IsMatched]
  | @empty st tag htag hkind =>
    refine ⟨List.forall_mem_cons.2 ⟨⟨?_, fun hunclosed => hunclosed ?_⟩, h.nodes⟩, h.before⟩
    · simp [Node.all, allNodes, Node.IsMatched]
    · rw [ElementHead.ofTag, token_of_ofToken? htag, hkind]
  | start _ _ => exact ⟨by simp, List.forall_mem_cons.2 ⟨h.nodes, h.before⟩⟩
  | @stop passed outer o nodes bindings tag _ _ hpassed hname =>
    obtain ⟨hnodes, hbefore⟩ := h
    obtain ⟨hpassedBefore, ho, houter⟩ := by
      simpa only [List.forall_mem_append, List.forall_mem_cons] using hbefore
    have hinside : TreeState.IsSettled ⟨passed, nodes, bindings⟩ := ⟨hnodes, hpassedBefore⟩
    refine ⟨List.forall_mem_cons.2 ⟨⟨?_, id⟩, ho⟩, houter⟩
    refine List.forall_mem_cons.2 ⟨⟨hname, fun head' children' hchild hkind => ?_⟩, hinside.matched_finish⟩
    -- A finished node is not unclosed, so the child is one of the elements that were passed over.
    rcases TreeState.mem_finish.1 hchild with hchild | ⟨p, hp, heq | hchild⟩
    · exact absurd hkind (hnodes _ hchild).closed
    · cases heq
      rw [show o.head.name = tag.name.value from hname]
      exact hpassed p hp
    · exact absurd hkind (hpassedBefore p hp _ hchild).closed

theorem matched_of_parseTokens (h : parseTokens tokens = .ok nodes) :
    ∀ m ∈ allNodes nodes, m.IsMatched := by
  obtain ⟨st, hst, rfl⟩ := parseTokens_eq_ok_iff.1 h
  have hsettled : st.IsSettled :=
    hst.induction (motive := fun _ st => st.IsSettled) ⟨by simp, by simp⟩ fun _ _ _ _ h hstep => hstep.isSettled h
  exact hsettled.matched_finish

theorem isVoidElement_of_unclosed (hns : ∀ m ∈ allNodes ns, m.IsMatched) {head head' : ElementHead}
    {children children' : List Node} {stop : Tag} (h : .element head children (some stop) ∈ allNodes ns)
    (h' : .element head' children' none ∈ allNodes children) (hkind : head'.start.token.kind ≠ .emptyTag) :
    isVoidElement head'.name = true := by
  have hbelow : ∀ m ∈ allNodes children, m.IsMatched := fun m hm => hns m (mem_allNodes_trans hm h)
  rcases mem_or_parent_of_mem_allNodes h' with hchild | ⟨head₁, children₁, stop₁, hparent, hchild⟩
  · exact ((hns _ h).2 _ _ hchild hkind).2
  · cases stop₁ with
    | none =>
      have hnone : children₁ = [] := hbelow _ hparent
      simp [hnone] at hchild
    | some stop₁ => exact ((hbelow _ hparent).2 _ _ hchild hkind).2

theorem piecesOf_of_parseTokens (h : parseTokens tokens = .ok nodes) :
    piecesOf nodes = tokens.map Piece.ofToken := by
  refine parseTokens_induction h (motive := fun seen nodes => piecesOf nodes = seen.map Piece.ofToken) rfl ?_
  intro seen tok before after _ hbefore hgrows
  rw [List.map_append, ← hbefore]
  cases hgrows with
  | text hnone => simp [piecesOf, Node.pieces, Piece.ofToken, hnone]
  | element bindings htag hkind => simp [piecesOf, Node.pieces, Piece.ofToken, htag, hkind, ElementHead.ofTag]
  | close htag hkind hname => simp [piecesOf, Node.pieces, Piece.ofToken, htag, hkind]

/-- Start and end tags are matched. Reading fails exactly if it comes to an end tag that closes no open element, and
reports that tag. Otherwise the pieces of the tree are the tokens in order, elements with an end tag have one name in
both tags, elements without have no children, and an unclosed element inside an element with an end tag is void. -/
theorem tag_matching (tokens : List Token) :
    (∀ f, parseTokens tokens = .error f ↔
      ∃ seen tok rest tag opened, tokens = seen ++ tok :: rest ∧ LeavesOpen seen opened ∧
        Tag.ofToken? tok = some tag ∧ tok.kind = .endTag ∧ Unmatched tag.name.value opened ∧
        f = tok.fault .parse (utf8 "Unexpected end tag")) ∧
    ∀ nodes, parseTokens tokens = .ok nodes →
      piecesOf nodes = tokens.map Piece.ofToken ∧
      (∀ head children, .element head children none ∈ allNodes nodes → children = []) ∧
      ∀ head children stop, .element head children (some stop) ∈ allNodes nodes →
        head.name = stop.name.value ∧
        ∀ head' children', .element head' children' none ∈ allNodes children →
          head'.start.token.kind ≠ .emptyTag → isVoidElement head'.name = true := by
  refine ⟨fun f => ?_, fun nodes hnodes => ?_⟩
  · rw [parseTokens_eq_error_iff]
    constructor
    · rintro ⟨seen, tok, rest, st, rfl, hseen, hstep⟩
      obtain ⟨hkind, ⟨tag, htag, hunmatched⟩, rfl⟩ := TreeState.step_eq_error_iff.1 hstep
      exact ⟨seen, tok, rest, tag, _, rfl, hseen.leavesOpen, htag, hkind, hunmatched, rfl⟩
    · rintro ⟨seen, tok, rest, tag, opened, rfl, hseen, htag, hkind, hunmatched, rfl⟩
      obtain ⟨st, hst, rfl⟩ := hseen.reads
      exact ⟨seen, tok, rest, st, rfl, hst, TreeState.step_eq_error_iff.2 ⟨hkind, ⟨tag, htag, hunmatched⟩, rfl⟩⟩
  · have hmatched := matched_of_parseTokens hnodes
    refine ⟨piecesOf_of_parseTokens hnodes, fun head children hmem => hmatched _ hmem, ?_⟩
    intro head children stop hmem
    exact ⟨(hmatched _ hmem).1, fun head' children' => isVoidElement_of_unclosed hmatched hmem⟩

/-- An end tag passes over a void element, and not over another one. -/
theorem tag_matching_passes_void_only :
    (∃ nodes, parse (utf8 "<p>a<br></p>") [] = .ok nodes ∧
      piecesOf nodes = (tokenize (utf8 "<p>a<br></p>") []).map Piece.ofToken) ∧
    ∃ f, parse (utf8 "<p>a<b></p>") [] = .error f := by
  constructor
  · obtain ⟨nodes, hnodes⟩ : ∃ nodes, parse (utf8 "<p>a<br></p>") [] = .ok nodes := exists_eq_ok (by decide +kernel)
    exact ⟨nodes, hnodes, ((tag_matching _).2 nodes hnodes).1⟩
  · let source := utf8 "<p>a<b></p>"
    let p : Token := ⟨.startTag, utf8 "<p>", 0, source, []⟩
    let a : Token := ⟨.text, utf8 "a", 3, source, []⟩
    let b : Token := ⟨.startTag, utf8 "<b>", 4, source, []⟩
    let stop : Token := ⟨.endTag, utf8 "</p>", 7, source, []⟩
    have htokens : tokenize source [] = [p, a, b] ++ stop :: [] := by decide +kernel
    have named : ∀ {tok : Token} {n : Bytes}, (Tag.ofToken? tok).map (·.name.value) = some n →
        ∃ tag, Tag.ofToken? tok = some tag ∧ tag.name.value = n := Option.map_eq_some_iff.1
    obtain ⟨tag₁, htag₁, hname₁⟩ := named (show (Tag.ofToken? p).map _ = some (utf8 "p") by decide +kernel)
    obtain ⟨tag₂, htag₂, hname₂⟩ := named (show (Tag.ofToken? b).map _ = some (utf8 "b") by decide +kernel)
    obtain ⟨tag, htag, hname⟩ := named (show (Tag.ofToken? stop).map _ = some (utf8 "p") by decide +kernel)
    have hopened : LeavesOpen [p, a, b] [tag₂.name.value, tag₁.name.value] :=
      .start (.beside (.start .nothing htag₁ rfl) (.inl (by decide +kernel))) htag₂ rfl
    have hunmatched : Unmatched tag.name.value [tag₂.name.value, tag₁.name.value] := by
      rw [hname₂, hname₁, hname, unmatched_cons]
      exact ⟨by decide +kernel, .inl (by decide +kernel)⟩
    exact ⟨_, ((tag_matching _).1 _).2 ⟨_, stop, [], tag, _, htokens, hopened, htag, rfl, hunmatched, rfl⟩⟩

end PageTemplate.Markup
