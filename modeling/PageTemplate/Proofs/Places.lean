import PageTemplate.Proofs.Compilation

/-!
Markup that may stand in another place. A `Placing` relates tokens of the same text, and with them the tokens that are
cut from them. Elements are `Alongside` each other if their tags are written the same and each directive on one is the
same directive on the other, whatever their order. Clauses are read alike in both places.
-/

namespace PageTemplate

open Markup (Token RawAttribute Attribute ElementHead)

/-- What is asked of a relation of tokens that may stand in different places. -/
structure Markup.Placing (S : Token → Token → Prop) : Prop where
  kind {t u : Token} : S t u → u.kind = t.kind
  value {t u : Token} : S t u → u.value = t.value
  cut {t u : Token} (i : Nat) (v : Bytes) :
    S t u → S { t with value := v, pos := t.pos + i } { u with value := v, pos := u.pos + i }

theorem Markup.placing_eq : Markup.Placing (· = ·) := ⟨(· ▸ rfl), (· ▸ rfl), fun _ _ h => h ▸ rfl⟩

/-- The attributes are written the same. -/
inductive Markup.RawAttribute.Alongside (S : Token → Token → Prop) (a : RawAttribute) : RawAttribute → Prop where
  | intro {name value : Token} : S a.name name → S a.value value → Alongside S a { a with name, value }

/-- The definitions are the same. -/
inductive Clause.Definition.Alongside (S : Token → Token → Prop) (d : Clause.Definition) : Clause.Definition → Prop where
  | intro {expr : Token} : S d.expr expr → Alongside S d { d with expr }

/-- The entries for attributes are the same. -/
inductive Clause.AttributeEntry.Alongside (S : Token → Token → Prop) (e : Clause.AttributeEntry) :
    Clause.AttributeEntry → Prop where
  | intro {expr : Token} : S e.expr expr → Alongside S e { e with expr }

/-- The same directives are there with the same clauses, whatever their order. -/
def Directives.Alongside (S : Token → Token → Prop) (ds ds' : Directives) : Prop :=
  ∀ d, Option.Rel (RawAttribute.Alongside S) (ds.raw? d) (ds'.raw? d)

/-- The tags of the elements are written the same, up to their attributes. -/
structure Markup.ElementHead.TagsAlike (head head' : ElementHead) (stop stop' : Option Markup.Tag) : Prop where
  opening : head'.start.opening = head.start.opening
  name : head'.name = head.name
  ending : head'.start.ending = head.start.ending
  directive : Markup.Namespace.isDirective head'.key.space = Markup.Namespace.isDirective head.key.space
  stop : stop'.map Markup.Tag.text = stop.map Markup.Tag.text

namespace Markup

namespace Placing

variable {S : Token → Token → Prop} (hS : Placing S) {t u : Token} (h : S t u)
include hS h

theorem slice (i j : Nat) : S (t.slice i j) (u.slice i j) := by
  unfold Token.slice
  rw [hS.value h]
  exact hS.cut _ _ h

theorem drop (i : Nat) : S (t.drop i) (u.drop i) := by
  unfold Token.drop
  rw [hS.value h]
  exact hS.cut _ _ h

theorem trim : S t.trim u.trim := by
  unfold Token.trim
  rw [hS.value h]
  exact hS.slice h _ _

theorem fragmentToken (f : Expression.Fragment) : S (Builder.fragmentToken t f) (Builder.fragmentToken u f) := by
  unfold Builder.fragmentToken
  have hwhole := hS.slice h f.offset f.stop
  dsimp only
  rw [hS.value hwhole]
  split
  · exact hS.slice hwhole _ _
  · exact hS.cut 0 _ hwhole

theorem indentation : Builder.indentation u = Builder.indentation t := by
  rw [Builder.indentation, Builder.indentation, hS.kind h, hS.value h]

end Placing

namespace RawAttribute.Alongside

variable {S : Token → Token → Prop} {a a' : RawAttribute} (hS : Placing S) (h : a.Alongside S a')
include hS h

omit hS in
theorem hasValue_eq : a'.hasValue = a.hasValue := by
  cases h
  rfl

theorem name_eq : a'.name.value = a.name.value := by
  obtain ⟨hname, _⟩ := h
  exact hS.value hname

theorem value_eq : a'.value.value = a.value.value := by
  obtain ⟨_, hvalue⟩ := h
  exact hS.value hvalue

theorem text_eq : a'.text = a.text := by
  obtain ⟨hname, hvalue⟩ := h
  simp only [text, hS.value hname, hS.value hvalue]

theorem literalAttribute_eq : Builder.literalAttribute a' = Builder.literalAttribute a := by
  obtain ⟨hname, hvalue⟩ := h
  unfold Builder.literalAttribute
  rw [hS.value hname, hS.value hvalue]
  rfl

end RawAttribute.Alongside

theorem ElementHead.TagsAlike.tagsWith_eq {head head' : ElementHead} {stop stop' : Option Tag}
    (h : head.TagsAlike head' stop stop') (attributes : List (PageTemplate.Node Expr)) (forceEnd : Bool) :
    Builder.tagsWith head' stop' attributes forceEnd = Builder.tagsWith head stop attributes forceEnd := by
  have hclosing : head'.isSelfClosing = head.isSelfClosing := by simp only [isSelfClosing, Tag.isEmpty, h.ending]
  have hstop := h.stop
  unfold Builder.tagsWith
  rw [h.opening, h.name, h.ending, hclosing]
  cases stop with
  | none => rw [Option.map_eq_none_iff.1 hstop]
  | some tag =>
    obtain ⟨tag', rfl, htext⟩ := Option.map_eq_some_iff.1 hstop
    dsimp only
    rw [htext]

/-! ### Clauses -/

namespace Placing

variable {S : Token → Token → Prop} (hS : Placing S) {t u : Token} (h : S t u)
include hS h

theorem substitution : ∃ e, S (Clause.substitution t).1 e ∧ Clause.substitution u = (e, (Clause.substitution t).2) := by
  have htrim := hS.trim h
  unfold Clause.substitution
  dsimp only
  rw [hS.value htrim]
  split
  · exact ⟨_, hS.drop htrim _, rfl⟩
  · exact ⟨_, hS.drop htrim _, rfl⟩
  · exact ⟨_, htrim, rfl⟩

theorem split : List.Forall₂ S (Clause.split t) (Clause.split u) := by
  unfold Clause.split
  rw [hS.value h]
  refine List.rel_filter (fun p q hpq => by simp only [hS.value hpq]) ?_
  refine List.forall₂_map_left_iff.2 (List.forall₂_map_right_iff.2 (List.forall₂_same.2 fun p _ => ?_))
  exact hS.trim (hS.cut p.1 p.2.2 h)

omit hS h in
theorem checkNames (t u : Token) (names : List Bytes) :
    Answers (fun _ _ => True) (Clause.checkNames t names) (Clause.checkNames u names) := by
  unfold Clause.checkNames
  split
  · exact .error _ _
  · exact .ok trivial

theorem iteration : Answers (fun p q => q.1 = p.1 ∧ S p.2 q.2) (Clause.iteration t) (Clause.iteration u) := by
  have htrim := hS.trim h
  unfold Clause.iteration
  dsimp only
  rw [hS.value htrim]
  split
  · exact .error _ _
  · exact .bind (checkNames _ _ _) fun _ _ _ => .ok ⟨rfl, hS.drop htrim _⟩

theorem definitions : Answers (List.Forall₂ (Clause.Definition.Alongside S)) (Clause.definitions t)
    (Clause.definitions u) := by
  unfold Clause.definitions
  refine .bind (.mapM (R := Clause.Definition.Alongside S) (fun part part' hpart => ?_) (hS.split h)) fun ds ds' hds => ?_
  · rw [hS.value hpart]
    split
    · exact .error _ _
    · exact .bind (checkNames _ _ _) fun _ _ _ => .ok (.intro (hS.drop hpart _))
  · cases hds with
    | nil => exact .error _ _
    | cons hd hds => exact .ok (.cons hd hds)

theorem attributes :
    Answers (List.Forall₂ (Clause.AttributeEntry.Alongside S)) (Clause.attributes t) (Clause.attributes u) := by
  unfold Clause.attributes
  generalize ([] : List Bytes) = seen
  have hparts := hS.split h
  generalize Clause.split t = parts at hparts ⊢
  generalize Clause.split u = parts' at hparts ⊢
  induction hparts generalizing seen with
  | nil => exact .ok .nil
  | cons hpart _ ih =>
    unfold Clause.attributeEntries
    rw [hS.value hpart]
    split
    · exact .bind (ih _) fun _ _ hrest => .ok (.cons (.intro hpart) hrest)
    · dsimp only
      split
      · exact .error _ _
      · exact .bind (ih _) fun _ _ hrest => .ok (.cons (.intro (hS.drop hpart _)) hrest)

theorem translatedAttributes : Answers (List.Forall₂ (· = ·)) (Clause.translatedAttributes t)
    (Clause.translatedAttributes u) := by
  refine .mapM (fun part part' hpart => ?_) (hS.split h)
  rw [hS.value hpart]
  split
  · exact .ok rfl
  · exact .ok rfl
  · exact .error _ _

end Placing

end Markup

/-! ### Directives -/

theorem isSome_eq_of_rel {α β : Type} {R : α → β → Prop} {o : Option α} {o' : Option β} (h : Option.Rel R o o') :
    o'.isSome = o.isSome := by
  cases h <;> rfl

theorem Directive.isDirective_of_ofKey? {k : Markup.Key} {d : Directive} (h : Directive.ofKey? k = some d) :
    Markup.Namespace.isDirective k.space = true := by
  have htable : ∀ e ∈ Directive.table, Markup.Namespace.isDirective e.1.space = true := by decide
  obtain ⟨before, after, heq, _⟩ := List.lookup_eq_some_iff.1 h
  exact htable (k, d) (by rw [heq]; simp)

namespace Directives

variable {ds ds' acc : Directives} {d : Directive} {a : Attribute} {as : List Attribute} {written : List RawAttribute}

@[simp] theorem raw?_cons (d d' : Directive) (a : RawAttribute) (ds : Directives) :
    raw? ((d, a) :: ds) d' = if d' = d then some a else ds.raw? d' := by
  rw [raw?, raw?, List.lookup_cons]
  by_cases h : d' = d
  · simp [h]
  · simp [h, beq_false_of_ne h]

/-- What an attribute that is not a directive leaves among the other attributes. -/
def others (a : Attribute) : List RawAttribute :=
  if a.key.space = Markup.Namespace.xmlns && Markup.Namespace.isDirective a.raw.value.value then [] else [a.raw]

theorem classify_cons_eq_ok :
    classify (a :: as) acc = .ok (ds, written) ↔
      (Markup.Namespace.isDirective a.key.space = true ∧ ∃ d, Directive.ofKey? a.key = some d ∧ acc.raw? d = none ∧
        classify as ((d, a.raw) :: acc) = .ok (ds, written)) ∨
      (Markup.Namespace.isDirective a.key.space = false ∧ ∃ rest, written = others a ++ rest ∧
        classify as acc = .ok (ds, rest)) := by
  rw [classify, others]
  by_cases hspace : Markup.Namespace.isDirective a.key.space = true
  · rw [if_pos hspace]
    cases hkey : Directive.ofKey? a.key with
    | none => simp [hspace]
    | some d => cases hraw : acc.raw? d <;> simp [hspace, has, hraw]
  · rw [if_neg hspace]
    split
    · simp [hspace]
    · cases classify as acc with
      | error f => simp [hspace, bind, Except.bind]
      | ok q => simp [hspace, bind, Except.bind, pure, Except.pure, Prod.ext_iff, eq_comm, and_comm]

theorem raw?_eq_none_iff : ds.raw? d = none ↔ ds.has d = false := by
  rw [has, Option.isSome_eq_false_iff, Option.isNone_iff_eq_none]

/-- The message has an id of its own. -/
def namesMessage (ds : Directives) : Bool := ((ds.clause? .translate).map fun t => !(Text.trim t.value).isEmpty).getD false

theorem checkExclusions_eq_ok {inNamespace : Bool} : ds.checkExclusions inNamespace = .ok () ↔
    (ds.has .content = true → ds.has .replace = false) ∧
    (ds.namesMessage = true → ds.has .content = false ∧ ds.has .replace = false) ∧
    (ds.has .attributes = true → inNamespace = false) ∧
    (ds.has .defineMacro = true → ds.has .useMacro = false) ∧
    (ds.has .useMacro = true → ds.has .extendMacro = false) := by
  have hcheck : ∀ (test : Bool) (d : Directive) (kind : FaultKind) (summary : String) (rest : Unit → Except Failure Unit),
      (if test then ds.reject d kind summary >>= rest else rest ()) = .ok () ↔
        (test = true → ds.has d = false) ∧ rest () = .ok () := by
    intro test d kind summary rest
    rw [← raw?_eq_none_iff, reject]
    cases test <;> cases ds.raw? d <;> simp [bind, Except.bind]
  have hlast : ∀ (test : Bool) (d : Directive) (kind : FaultKind) (summary : String),
      (if test then ds.reject d kind summary else pure ()) = .ok () ↔ (test = true → ds.has d = false) := by
    intro test d kind summary
    rw [← bind_pure (ds.reject d kind summary), hcheck]
    exact and_iff_left rfl
  have hmessage : ds.namesMessage = true → ds.has .translate = true := by
    rw [namesMessage, clause?, has]
    cases ds.raw? .translate <;> simp
  simp only [checkExclusions, hcheck, hlast]
  refine and_congr ?_ (and_congr ?_ (and_congr ?_ (and_congr ?_ ?_)))
  · cases ds.has .content <;> simp
  · change (ds.namesMessage && _) = true → _ ↔ _
    cases hnames : ds.namesMessage
    · simp
    · simp [hmessage hnames]
  · cases ds.has .attributes <;> simp
  · cases ds.has .defineMacro <;> simp
  · cases ds.has .useMacro <;> simp

namespace Alongside

variable {S : Token → Token → Prop} (h : ds.Alongside S ds')

theorem refl (ds : Directives) : ds.Alongside (· = ·) ds := by
  intro d
  cases ds.raw? d with
  | none => exact .none
  | some a => exact .some (.intro rfl rfl)

include h

theorem has_eq (d : Directive) : ds'.has d = ds.has d := isSome_eq_of_rel (h d)

/-- A directive is on neither of the elements, or on both with related clauses. -/
theorem clauses (d : Directive) : ds.clause? d = none ∧ ds'.clause? d = none ∨
    ∃ t t', ds.clause? d = some t ∧ ds'.clause? d = some t' ∧ S t t' := by
  have hd := h d
  rw [clause?, clause?]
  generalize ds.raw? d = o at hd ⊢
  generalize ds'.raw? d = o' at hd ⊢
  cases hd with
  | none => exact .inl ⟨rfl, rfl⟩
  | some ha =>
    obtain ⟨_, hvalue⟩ := ha
    exact .inr ⟨_, _, rfl, rfl, hvalue⟩

theorem checkExclusions (hS : Markup.Placing S) (inNamespace : Bool) :
    Answers (fun _ _ => True) (ds.checkExclusions inNamespace) (ds'.checkExclusions inNamespace) := by
  have hmessage : ds'.namesMessage = ds.namesMessage := by
    rw [namesMessage, namesMessage]
    rcases h.clauses .translate with ⟨hnone, hnone'⟩ | ⟨t, t', ht, ht', htt'⟩
    · rw [hnone, hnone']
    · rw [ht, ht', Option.map_some, Option.map_some, hS.value htt']
  intro _ hds
  refine ⟨(), ?_, trivial⟩
  simpa only [checkExclusions_eq_ok, h.has_eq, hmessage] using checkExclusions_eq_ok.1 hds

theorem call? : Option.Rel (fun p q => S p.1 q.1 ∧ q.2 = p.2) (Builder.call? ds) (Builder.call? ds') := by
  unfold Builder.call?
  rcases h.clauses .extendMacro with ⟨hnone, hnone'⟩ | ⟨t, t', ht, ht', htt'⟩
  · rw [hnone, hnone']
    rcases h.clauses .useMacro with ⟨hnone, hnone'⟩ | ⟨t, t', ht, ht', htt'⟩
    · rw [hnone, hnone']
      exact .none
    · rw [ht, ht']
      exact .some ⟨htt', rfl⟩
  · rw [ht, ht']
    exact .some ⟨htt', rfl⟩

theorem inside_eq (s : Builder.Surrounding) (switchId : Nat) :
    Builder.inside s ds' switchId = Builder.inside s ds switchId := by
  rw [Builder.inside, Builder.inside, h.has_eq, isSome_eq_of_rel h.call?]

end Alongside

end Directives

/-! ### Elements -/

/-- The elements are written the same, up to the order of their directives. -/
structure Builder.Alongside (S : Token → Token → Prop) (head head' : ElementHead) (stop stop' : Option Markup.Tag)
    (ds ds' : Directives) (written written' : List RawAttribute) : Prop extends head.TagsAlike head' stop stop' where
  clauses : ds.Alongside S ds'
  written : List.Forall₂ (RawAttribute.Alongside S) written written'

namespace Markup

variable {S : Token → Token → Prop}

/-- If the attributes of the first element can be told apart, so can those of the second, and the same comes out. -/
structure ElementHead.Alongside (S : Token → Token → Prop) (head head' : ElementHead) (stop stop' : Option Tag) : Prop
    extends head.TagsAlike head' stop stop' where
  classify : Answers (fun p p' => p.1.Alongside S p'.1 ∧ List.Forall₂ (RawAttribute.Alongside S) p.2 p'.2)
    (Directives.classify head.attributes []) (Directives.classify head'.attributes [])

/-- The forests are the same, up to where their tokens stand and to the order of directives. -/
inductive Alongside (S : Token → Token → Prop) : List Node → List Node → Prop where
  | nil : Alongside S [] []
  | text {t t' : Token} {rest rest' : List Node} : S t t' → Alongside S rest rest' →
    Alongside S (.text t :: rest) (.text t' :: rest')
  | element {head head' : ElementHead} {children children' rest rest' : List Node} {stop stop' : Option Tag} :
    head.Alongside S head' stop stop' → Alongside S children children' → Alongside S rest rest' →
    Alongside S (.element head children stop :: rest) (.element head' children' stop' :: rest')

theorem ElementHead.TagsAlike.refl (head : ElementHead) (stop : Option Tag) : head.TagsAlike head stop stop :=
  ⟨rfl, rfl, rfl, rfl, rfl⟩

theorem RawAttribute.alongside_self (as : List RawAttribute) : List.Forall₂ (RawAttribute.Alongside (· = ·)) as as :=
  List.forall₂_same.2 fun _ _ => .intro rfl rfl

theorem ElementHead.Alongside.refl (head : ElementHead) (stop : Option Tag) : head.Alongside (· = ·) head stop stop :=
  ⟨.refl head stop, fun p hp => ⟨p, hp, .refl p.1, RawAttribute.alongside_self p.2⟩⟩

theorem Alongside.refl : ∀ tree : List Node, Alongside (· = ·) tree tree
  | [] => .nil
  | .text _ :: rest => .text rfl (refl rest)
  | .element head children stop :: rest =>
    .element (.refl head stop) (refl children) (refl rest)

end Markup

theorem Builder.Alongside.refl (head : ElementHead) (stop : Option Markup.Tag) (ds : Directives)
    (written : List RawAttribute) :
    Builder.Alongside (· = ·) head head stop stop ds ds written written :=
  ⟨.refl head stop, .refl ds, RawAttribute.alongside_self written⟩

end PageTemplate
