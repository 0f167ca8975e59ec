import Mathlib.Tactic.MkIffOfInductiveProp
import PageTemplate.Proofs.Render.Twins

/-!
The order of directives. Templates that differ only in the order of the directives on their elements are `Reordered`:
each attribute is there, and those that are not directives keep their order. Such templates are both accepted or both
refused, and rendering them comes to the same text or the same cause of failure, as long as they show the same text as
their source.
-/

namespace PageTemplate

namespace Markup

/-! ### Templates that differ in the order of directives -/

/-- The token without its place. -/
def Token.unplaced (t : Token) : Token := { kind := t.kind, value := t.value }

def RawAttribute.unplaced (a : RawAttribute) : RawAttribute :=
  { a with name := a.name.unplaced, value := a.value.unplaced }

def Attribute.unplaced (a : Attribute) : Attribute := { a with raw := a.raw.unplaced }

/-- The attributes that are not directives, in their order. -/
def ElementHead.literals (head : ElementHead) : List Attribute :=
  head.attributes.filter fun a => !Namespace.isDirective a.key.space

/-- The start tags differ in the order of the directives among their attributes, and in where they stand. -/
@[mk_iff]
structure ElementHead.Reordered (head head' : ElementHead) : Prop where
  key : head'.key = head.key
  opening : head'.start.opening = head.start.opening
  name : head'.name = head.name
  ending : head'.start.ending = head.start.ending
  attributes : (head'.attributes.map Attribute.unplaced).Perm (head.attributes.map Attribute.unplaced)
  literals : head'.literals.map Attribute.unplaced = head.literals.map Attribute.unplaced

/-- The forests differ in the order of directives on their elements, and in where they stand. -/
inductive Reordered : List Node → List Node → Prop where
  | nil : Reordered [] []
  | text {t t' : Token} {rest rest' : List Node} : t'.unplaced = t.unplaced → Reordered rest rest' →
    Reordered (.text t :: rest) (.text t' :: rest')
  | element {head head' : ElementHead} {children children' rest rest' : List Node} {stop stop' : Option Tag} :
    head.Reordered head' → stop'.map Tag.text = stop.map Tag.text → Reordered children children' → Reordered rest rest' →
    Reordered (.element head children stop :: rest) (.element head' children' stop' :: rest')

instance (head head' : ElementHead) : Decidable (head.Reordered head') :=
  decidable_of_iff' _ (ElementHead.reordered_iff head head')

mutual

/-- Whether the trees differ only in the order of directives on their elements, and in where they stand. -/
def Node.isReordered : Node → Node → Bool
  | .text t, .text t' => decide (t'.unplaced = t.unplaced)
  | .element head children stop, .element head' children' stop' =>
    decide (head.Reordered head') && decide (stop'.map Tag.text = stop.map Tag.text) && isReordered children children'
  | _, _ => false

/-- Whether the forests differ only in the order of directives on their elements, and in where they stand. -/
def isReordered : List Node → List Node → Bool
  | [], [] => true
  | n :: ns, n' :: ns' => n.isReordered n' && isReordered ns ns'
  | _, _ => false

end

theorem reordered_of_isReordered : ∀ tree tree' : List Node, isReordered tree tree' = true → Reordered tree tree'
  | [], [] => fun _ => .nil
  | .text _ :: rest, .text _ :: rest' => fun h => by
    simp only [isReordered, Node.isReordered, Bool.and_eq_true, decide_eq_true_eq] at h
    exact .text h.1 (reordered_of_isReordered rest rest' h.2)
  | .element _ children _ :: rest, .element _ children' _ :: rest' => fun h => by
    simp only [isReordered, Node.isReordered, Bool.and_eq_true, decide_eq_true_eq] at h
    obtain ⟨⟨⟨hhead, hstop⟩, hchildren⟩, hrest⟩ := h
    exact .element hhead hstop (reordered_of_isReordered children children' hchildren)
      (reordered_of_isReordered rest rest' hrest)
  | [], _ :: _ | _ :: _, [] => fun h => by simp [isReordered] at h
  | .text _ :: _, .element _ _ _ :: _ | .element _ _ _ :: _, .text _ :: _ => fun h => by
    simp [isReordered, Node.isReordered] at h

theorem ElementHead.Reordered.symm {head head' : ElementHead} (h : head.Reordered head') : head'.Reordered head :=
  ⟨h.key.symm, h.opening.symm, h.name.symm, h.ending.symm, h.attributes.symm, h.literals.symm⟩

theorem Reordered.symm {tree tree' : List Node} (h : Reordered tree tree') : Reordered tree' tree := by
  induction h with
  | nil => exact .nil
  | text ht _ ih => exact .text ht.symm ih
  | element hhead hstop _ _ ihchildren ihrest => exact .element hhead.symm hstop.symm ihchildren ihrest

/-- The tokens have the same text. -/
structure Token.SameText (t u : Token) : Prop where
  kind : u.kind = t.kind
  value : u.value = t.value

theorem placing_sameText : Placing Token.SameText := ⟨(·.kind), (·.value), fun _ _ h => ⟨h.kind, rfl⟩⟩

theorem Token.sameText_of_unplaced_eq {t u : Token} (h : u.unplaced = t.unplaced) : t.SameText u := by
  obtain ⟨hkind, hvalue, _⟩ := Token.mk.inj h
  exact ⟨hkind, hvalue⟩

theorem RawAttribute.Alongside.of_unplaced_eq {a a' : RawAttribute} (h : a'.unplaced = a.unplaced) :
    a.Alongside Token.SameText a' := by
  obtain ⟨space, name, eq, quote, value⟩ := a'
  obtain ⟨rfl, hname, rfl, rfl, hvalue⟩ := RawAttribute.mk.inj h
  exact .intro (Token.sameText_of_unplaced_eq hname) (Token.sameText_of_unplaced_eq hvalue)

end Markup

/-! ### Classification -/

namespace Directives

open Markup (Attribute RawAttribute ElementHead Token)

variable {as as' : List Attribute} {acc ds ds' : Directives} {written written' : List RawAttribute} {d : Directive}
  {a : Attribute}

theorem raw?_eq_some_iff_of_classify {raw : RawAttribute} (h : classify as acc = .ok (ds, written)) :
    ds.raw? d = some raw ↔ acc.raw? d = some raw ∨ ∃ a ∈ as, Directive.ofKey? a.key = some d ∧ a.raw = raw := by
  induction as generalizing acc written with
  | nil =>
    cases h
    simp
  | cons a as ih =>
    rw [List.exists_mem_cons_iff]
    rcases classify_cons_eq_ok.1 h with ⟨_, d₁, hkey, hd₁, h⟩ | ⟨hspace, rest, _, h⟩
    · rw [ih h, raw?_cons, hkey, Option.some.injEq, eq_comm (a := d₁)]
      by_cases hd : d = d₁
      · simp [hd, hd₁]
      · simp [hd]
    · -- What is not a directive is not the directive that is looked for.
      have hkey : Directive.ofKey? a.key ≠ some d := fun hkey => by
        rw [Directive.isDirective_of_ofKey? hkey] at hspace
        cases hspace
      rw [ih h]
      simp [hkey]

/-- Each attribute in a directive namespace is a directive that is not there yet, and no two are the same. -/
structure Fit (acc : Directives) (as : List Attribute) : Prop where
  known : ∀ a ∈ as, Markup.Namespace.isDirective a.key.space = true →
    ∃ d, Directive.ofKey? a.key = some d ∧ acc.raw? d = none
  distinct : as.Pairwise fun a b => ∀ d, Directive.ofKey? a.key = some d → Directive.ofKey? b.key ≠ some d

theorem fit_cons_of_ofKey? (hkey : Directive.ofKey? a.key = some d) :
    Fit acc (a :: as) ↔ acc.raw? d = none ∧ Fit ((d, a.raw) :: acc) as := by
  have hnone : ∀ d', raw? ((d, a.raw) :: acc) d' = none ↔ d' ≠ d ∧ acc.raw? d' = none := fun d' => by
    rw [raw?_cons]
    split <;> simp [*]
  constructor
  · rintro ⟨hknown, hdistinct⟩
    obtain ⟨hhead, htail⟩ := List.pairwise_cons.1 hdistinct
    obtain ⟨d₁, hkey₁, hd₁⟩ := hknown a List.mem_cons_self (Directive.isDirective_of_ofKey? hkey)
    obtain rfl : d = d₁ := Option.some.inj (hkey.symm.trans hkey₁)
    refine ⟨hd₁, fun b hb hspace => ?_, htail⟩
    obtain ⟨d', hkey', hd'⟩ := hknown b (List.mem_cons_of_mem a hb) hspace
    exact ⟨d', hkey', (hnone d').2 ⟨fun heq => hhead b hb d hkey (heq ▸ hkey'), hd'⟩⟩
  · rintro ⟨hd, hknown, hdistinct⟩
    refine ⟨List.forall_mem_cons.2 ⟨fun _ => ⟨d, hkey, hd⟩, fun b hb hspace => ?_⟩,
      List.pairwise_cons.2 ⟨fun b hb d₁ hkey₁ hb₁ => ?_, hdistinct⟩⟩
    · exact (hknown b hb hspace).imp fun d' h => ⟨h.1, ((hnone d').1 h.2).2⟩
    · obtain ⟨d', hkey', hd'⟩ := hknown b hb (Directive.isDirective_of_ofKey? hb₁)
      refine ((hnone d').1 hd').1 (Option.some.inj ?_)
      rw [← hkey', hb₁, ← hkey₁, hkey]

theorem fit_cons_of_other (hspace : Markup.Namespace.isDirective a.key.space = false) : Fit acc (a :: as) ↔ Fit acc as := by
  refine ⟨fun h => ⟨fun b hb => h.known b (List.mem_cons_of_mem a hb), h.distinct.of_cons⟩, fun h => ⟨?_, ?_⟩⟩
  · exact List.forall_mem_cons.2 ⟨fun htrue => by simp [hspace] at htrue, h.known⟩
  · refine List.pairwise_cons.2 ⟨fun b _ d hkey => ?_, h.distinct⟩
    rw [Directive.isDirective_of_ofKey? hkey] at hspace
    cases hspace

theorem exists_classify_iff : (∃ ds, classify as acc = .ok (ds, written)) ↔
    Fit acc as ∧ written = (as.filter fun a => !Markup.Namespace.isDirective a.key.space).flatMap others := by
  induction as generalizing acc written with
  | nil =>
    have hfit : Fit acc [] := ⟨by simp, .nil⟩
    simp [classify, hfit, eq_comm]
  | cons a as ih =>
    simp only [classify_cons_eq_ok]
    cases hspace : Markup.Namespace.isDirective a.key.space with
    | true =>
      cases hkey : Directive.ofKey? a.key with
      | none =>
        have hunfit : ¬Fit acc (a :: as) := fun h => by simpa [hkey] using h.known a List.mem_cons_self hspace
        simp [hunfit]
      | some d => simp [fit_cons_of_ofKey? hkey, hspace, ← ih, and_assoc]
    | false =>
      rw [List.filter_cons_of_pos (by simp [hspace]), List.flatMap_cons, fit_cons_of_other hspace]
      constructor
      · rintro ⟨ds, ⟨hfalse, _⟩ | ⟨_, rest, rfl, h⟩⟩
        · cases hfalse
        · obtain ⟨hfit, rfl⟩ := ih.1 ⟨ds, h⟩
          exact ⟨hfit, rfl⟩
      · rintro ⟨hfit, rfl⟩
        obtain ⟨ds, h⟩ := ih.2 ⟨hfit, rfl⟩
        exact ⟨ds, .inr ⟨rfl, _, rfl, h⟩⟩

theorem Fit.of_perm (h : Fit acc as) (hkeys : (as'.map (·.key)).Perm (as.map (·.key))) : Fit acc as' := by
  refine ⟨fun a' ha' hspace => ?_, ?_⟩
  · obtain ⟨a, ha, hkey⟩ := List.mem_map.1 (hkeys.mem_iff.1 (List.mem_map_of_mem ha'))
    rw [← hkey] at hspace ⊢
    exact h.known a ha hspace
  · have hdistinct : (as.map (·.key)).Pairwise fun k k' => ∀ d, Directive.ofKey? k = some d → Directive.ofKey? k' ≠ some d :=
      List.pairwise_map.2 h.distinct
    exact List.pairwise_map.1 (hkeys.symm.pairwise hdistinct fun hne d h' h => hne d h h')

theorem exists_raw?_of_perm (hperm : (as.map Attribute.unplaced).Perm (as'.map Attribute.unplaced))
    (h : classify as [] = .ok (ds, written)) (h' : classify as' [] = .ok (ds', written')) {raw : RawAttribute}
    (hraw : ds.raw? d = some raw) : ∃ raw', ds'.raw? d = some raw' ∧ raw'.unplaced = raw.unplaced := by
  rcases (raw?_eq_some_iff_of_classify h).1 hraw with hnil | ⟨a, ha, hkey, rfl⟩
  · cases hnil
  · obtain ⟨a', ha', heq⟩ := List.mem_map.1 (hperm.mem_iff.1 (List.mem_map_of_mem ha))
    obtain ⟨hkey', hraw'⟩ := Attribute.mk.inj heq
    exact ⟨a'.raw, (raw?_eq_some_iff_of_classify h').2 (.inr ⟨a', ha', hkey' ▸ hkey, rfl⟩), hraw'⟩

theorem answers_classify {head head' : ElementHead} (h : head.Reordered head') :
    Answers (fun p p' => p.1.Alongside Token.SameText p'.1 ∧ List.Forall₂ (RawAttribute.Alongside Token.SameText) p.2 p'.2)
      (classify head.attributes []) (classify head'.attributes []) := by
  rintro ⟨ds, written⟩ hclassify
  obtain ⟨hfit, rfl⟩ := exists_classify_iff.1 ⟨ds, hclassify⟩
  have hkeys := h.attributes.map Attribute.key
  rw [List.map_map, List.map_map] at hkeys
  -- Whether the directives fit each other is a matter of their keys, in any order.
  obtain ⟨ds', hclassify'⟩ := exists_classify_iff.2 ⟨hfit.of_perm hkeys, rfl⟩
  refine ⟨(ds', _), hclassify', fun d => ?_, ?_⟩
  · cases hraw : ds.raw? d with
    | some raw =>
      obtain ⟨raw', hraw', heq⟩ := exists_raw?_of_perm h.attributes.symm hclassify hclassify' hraw
      rw [hraw']
      exact .some (.of_unplaced_eq heq)
    | none =>
      cases hraw' : ds'.raw? d with
      | none => exact .none
      | some raw' =>
        -- No directive is there in one order only.
        obtain ⟨raw, hsome, _⟩ := exists_raw?_of_perm h.attributes hclassify' hclassify hraw'
        rw [hraw] at hsome
        cases hsome
  · have hliterals : List.Forall₂ (fun a a' => a'.unplaced = a.unplaced) head.literals head'.literals := by
      have hmaps : List.Forall₂ (fun b b' => b' = b) (head.literals.map Attribute.unplaced)
          (head'.literals.map Attribute.unplaced) := by
        rw [h.literals]
        exact List.forall₂_same.2 fun _ _ => rfl
      exact List.forall₂_map_left_iff.1 (List.forall₂_map_right_iff.1 hmaps)
    refine List.rel_flatMap hliterals fun a a' haa' => ?_
    obtain ⟨hkey, hraw⟩ := Attribute.mk.inj haa'
    have halongside := RawAttribute.Alongside.of_unplaced_eq hraw
    rw [others, others, hkey, halongside.value_eq Markup.placing_sameText]
    split
    · exact .nil
    · exact .cons halongside .nil

end Directives

theorem Markup.Reordered.alongside {tree tree' : List Markup.Node} (h : Markup.Reordered tree tree') :
    Markup.Alongside Markup.Token.SameText tree tree' := by
  induction h with
  | nil => exact .nil
  | text ht _ ih => exact .text (Markup.Token.sameText_of_unplaced_eq ht) ih
  | element hhead hstop _ _ ihchildren ihrest =>
    refine .element ⟨⟨hhead.opening, hhead.name, hhead.ending, by rw [hhead.key], hstop⟩, ?_⟩ ihchildren ihrest
    exact Directives.answers_classify hhead

/-! ### Building and compiling -/

/-- The expressions are the same, and stand in texts that are the same. -/
structure Expr.Abreast (e e' : Expr) : Prop where
  id : e'.id = e.id
  token : e.token.SameText e'.token

/-- The expressions are the same, wherever they stand. -/
structure Compiled.Abreast (c c' : Compiled) : Prop where
  id : c'.id = c.id
  evaluator : c'.evaluator = c.evaluator

/-- The same numbers are drawn for the same texts. -/
def Builder.abreast : Track where
  counts n n' := n' = n
  tokens := Markup.Token.SameText
  paired := Expr.Abreast
  leftOut _ := False
  placing := Markup.placing_sameText
  draws hn ht := ⟨congrArg (· + 1) hn, hn, ht⟩

theorem answers_compileExpr_of_abreast {m m' : Module} (r : Expression.Registry) {e e' : Expr} (h : e.Abreast e') :
    Answers Compiled.Abreast (m.compileExpr r e) (m'.compileExpr r e') := by
  unfold Module.compileExpr
  rw [h.token.value]
  split
  · exact .ok ⟨h.id, rfl⟩
  · exact .error _ _

/-- The programs are the same, wherever their expressions stand. -/
abbrev Program.Abreast : Program → Program → Prop := Program.Paired Compiled.Abreast fun _ => False

theorem answers_compileTemplate {filename source source' : Bytes} {tree tree' : List Markup.Node}
    (hparse : Markup.parse source filename = .ok tree) (hparse' : Markup.parse source' filename = .ok tree')
    (h : Markup.Reordered tree tree') (r : Expression.Registry) (settings : Nat) :
    Answers Program.Abreast (compileTemplate r filename source settings) (compileTemplate r filename source' settings) := by
  unfold compileTemplate
  rw [hparse, hparse']
  refine .bind (.ok h) fun _ _ h => .bind (Builder.answers_build Builder.abreast rfl h.alongside r filename source source')
    fun m m' hm p hp => ?_
  have hleftOut : ∀ e c, False → m.compileExpr r e = .ok c → False := fun _ _ hfalse _ => hfalse
  obtain ⟨p', hp', hpaired, _⟩ :=
    Module.answers_compile (fun _ _ he => answers_compileExpr_of_abreast r he) hleftOut hm.1 settings p hp
  exact ⟨p', hp', hpaired⟩

/-! ### Rendering -/

namespace Render

/-- What is seen of a run: its text, or why it failed. There is nothing to see if calls are nested too deeply. -/
def outcome? (run : Option (Except Failure Unit × State)) : Option (Except Failure Bytes) :=
  run.map fun e =>
    match e.1 with
    | .ok _ => .ok e.2.out.text
    | .error f => .error f.cause

theorem outcome?_eq_of_abreast {p p' : Program} (h : p.Abreast p') (hsource : p'.source = p.source) {number : Nat}
    {st : State} {depth : Nat} {start : Start} {e : Except Failure Unit × State} (hrun : (start.render depth).run st = some e)
    (hp : st.world.programs[number]? = some p) (hactivations : st.activations = []) :
    outcome? ((start.render depth).run { st with world := st.world.withProgram number p' }) = outcome? (some e) := by
  -- Only where the expressions stand is different, so whatever is located may be located elsewhere.
  let T : Twins := {
    number, first := p, second := p', paired := Compiled.Abreast, leftOut := fun _ => False, sites := fun _ _ => True
    sites_refl := fun _ => trivial, programs := h, source := hsource, evaluator := (·.evaluator), site := fun _ => trivial
    id_eq_iff := fun he he₁ => by rw [he.id, he₁.id], id_ne := fun hfalse _ => hfalse.elim }
  obtain ⟨result', s', hrun', hended, hs⟩ := T.exists_run hp hactivations hrun fun v _ hclause => hclause.2.elim
  obtain ⟨_, _, _⟩ := hs
  have hcause : ∀ site cause, (Failure.located site cause).cause = cause := fun _ _ => by
    simp [Failure.cause, Failure.site?, Failure.chain]
  rw [hrun', outcome?, outcome?, Option.map_some, Option.map_some]
  obtain ⟨result, s⟩ := e
  cases hended with
  | ok _ => rfl
  | error hf =>
    cases hf with
    | refl f => rfl
    | located cause _ => simp only [hcause]

/-- The text that a program renders on its own. -/
def shownText? (p : Program) : Option Bytes :=
  (outcome? ((Start.render 1 (.entry 0 0 [] [])).run { world := { programs := [p] } })).bind Except.toOption

/-- The texts that two templates render that differ in the order of directives. -/
def shownTexts? (r : Expression.Registry) (source source' : Bytes) : Option (Option Bytes × Option Bytes) := do
  let tree ← (Markup.parse source []).toOption
  let tree' ← (Markup.parse source' []).toOption
  if Markup.isReordered tree tree' then
    let p ← (compileTemplate r [] source 0).toOption
    let p' ← (compileTemplate r [] source' 0).toOption
    return (shownText? p, shownText? p')
  else none

theorem exists_of_shownTexts? {r : Expression.Registry} {source source' : Bytes} {q : Option Bytes × Option Bytes}
    (h : shownTexts? r source source' = some q) :
    ∃ tree tree' p p', Markup.parse source [] = .ok tree ∧ Markup.parse source' [] = .ok tree' ∧
      Markup.Reordered tree tree' ∧ compileTemplate r [] source 0 = .ok p ∧ compileTemplate r [] source' 0 = .ok p' ∧
      shownText? p = q.1 ∧ shownText? p' = q.2 := by
  obtain ⟨tree, hparse, h⟩ := Option.bind_eq_some_iff.1 h
  obtain ⟨tree', hparse', h⟩ := Option.bind_eq_some_iff.1 h
  split at h
  · next hreordered =>
    obtain ⟨p, hp, h⟩ := Option.bind_eq_some_iff.1 h
    obtain ⟨p', hp', h⟩ := Option.bind_eq_some_iff.1 h
    cases h
    exact ⟨tree, tree', p, p', eq_ok_of_toOption hparse, eq_ok_of_toOption hparse',
      Markup.reordered_of_isReordered tree tree' hreordered, eq_ok_of_toOption hp, eq_ok_of_toOption hp', rfl, rfl⟩
  · cases h

/-- The order in which directives are written does not matter. If two sources are read as templates that differ only in
that order, both can be built or none, and both can be compiled or none. Put in one place of a world, the two programs
render the same text or fail for the same cause, whatever is bound and wherever rendering starts, provided that they
show the same text as their source. -/
theorem directives_in_any_order {filename source source' : Bytes} {tree tree' : List Markup.Node}
    (hparse : Markup.parse source filename = .ok tree) (hparse' : Markup.parse source' filename = .ok tree')
    (h : Markup.Reordered tree tree') (r : Expression.Registry) (settings : Nat) :
    ((∃ m, Builder.build r filename source tree = .ok m) ↔ ∃ m', Builder.build r filename source' tree' = .ok m') ∧
    ((∃ p, compileTemplate r filename source settings = .ok p) ↔
      ∃ p', compileTemplate r filename source' settings = .ok p') ∧
    ∀ {p p' : Program}, compileTemplate r filename source settings = .ok p →
      compileTemplate r filename source' settings = .ok p' →
      ∀ (text : Bytes) (number depth : Nat) (start : Start) (st : State),
        st.world.programs[number]? = some { p with source := text } → st.activations = [] →
        outcome? ((start.render depth).run { st with world := st.world.withProgram number { p' with source := text } }) =
          outcome? ((start.render depth).run st) := by
  have hbuild : ∀ {source source' tree tree'}, Markup.Reordered tree tree' →
      (∃ m, Builder.build r filename source tree = .ok m) → ∃ m', Builder.build r filename source' tree' = .ok m' :=
    fun h hm => hm.elim fun m hm =>
      (Builder.answers_build Builder.abreast rfl h.alongside r filename _ _ m hm).imp fun _ h => h.1
  have hcompile := answers_compileTemplate hparse hparse' h r settings
  have hcompile' := answers_compileTemplate hparse' hparse h.symm r settings
  refine ⟨⟨hbuild h, hbuild h.symm⟩, ⟨fun hp => hp.elim fun p hp => (hcompile p hp).imp fun _ h => h.1,
    fun hp => hp.elim fun p hp => (hcompile' p hp).imp fun _ h => h.1⟩, ?_⟩
  intro p p' hp hp' text number depth start st hprogram hactivations
  have hshown : ∀ {p p' : Program}, p.Abreast p' → Program.Abreast { p with source := text } { p' with source := text } :=
    fun h => ⟨h.filename, h.settings, h.entries, h.main, h.macros⟩
  have habreast : p.Abreast p' := by
    obtain ⟨q, hq, habreast⟩ := hcompile p hp
    exact Except.ok.inj (hq.symm.trans hp') ▸ habreast
  have habreast' : p'.Abreast p := by
    obtain ⟨q, hq, habreast⟩ := hcompile' p' hp'
    exact Except.ok.inj (hq.symm.trans hp) ▸ habreast
  cases hrun : (start.render depth).run st with
  | some e => exact outcome?_eq_of_abreast (hshown habreast) rfl hrun hprogram hactivations
  | none =>
    -- If the second program came to an end, so would the first one, put back in its place.
    cases hrun' : (start.render depth).run { st with world := st.world.withProgram number { p' with source := text } } with
    | none => rfl
    | some e' =>
      obtain ⟨hnumber, hfirst⟩ := List.getElem?_eq_some_iff.1 hprogram
      have hsecond : (st.world.withProgram number { p' with source := text }).programs[number]? =
          some { p' with source := text } := List.getElem?_set_self hnumber
      have hback := outcome?_eq_of_abreast (hshown habreast') rfl hrun' hsecond hactivations
      have hworld : (st.world.withProgram number { p' with source := text }).withProgram number { p with source := text } =
          st.world := by
        rw [World.withProgram, World.withProgram, List.set_set, ← hfirst, List.set_getElem_self]
      rw [hworld, hrun] at hback
      cases hback

/-- The directives stand on both sides of an attribute, and one of them uses the variable that another one defines. -/
theorem directives_in_any_order_around_class :
    let r := Expression.Registry.initial (utf8 "path") []
    let source := utf8 "<p tal:define=\"x string:2\" class=\"c\" tal:content=\"x\" tal:attributes=\"id x\">a</p>"
    let source' := utf8 "<p tal:attributes=\"id x\" tal:content=\"x\" class=\"c\" tal:define=\"x string:2\">a</p>"
    let start : Start := .entry 0 0 [] []
    ∃ tree tree' p p', Markup.parse source [] = .ok tree ∧ Markup.parse source' [] = .ok tree' ∧
      Markup.Reordered tree tree' ∧ compileTemplate r [] source 0 = .ok p ∧ compileTemplate r [] source' 0 = .ok p' ∧
      shownText? p = some (utf8 "<p class=\"c\" id=\"2\">2</p>") ∧
      outcome? ((start.render 1).run { world := { programs := [{ p' with source := p.source }] } }) =
        outcome? ((start.render 1).run { world := { programs := [p] } }) := by
  intro r source source' start
  have hcomputed : (shownTexts? r source source').map (·.1) = some (some (utf8 "<p class=\"c\" id=\"2\">2</p>")) := by
    decide +kernel
  obtain ⟨q, hq, htext⟩ := Option.map_eq_some_iff.1 hcomputed
  obtain ⟨tree, tree', p, p', hparse, hparse', hreordered, hp, hp', hshown, _⟩ := exists_of_shownTexts? hq
  obtain ⟨_, _, hsame⟩ := directives_in_any_order hparse hparse' hreordered r 0
  exact ⟨tree, tree', p, p', hparse, hparse', hreordered, hp, hp', hshown.trans htext,
    hsame hp hp' p.source 0 1 start { world := { programs := [p] } } rfl rfl⟩

/-- A template can see the order of its directives in its source. -/
theorem source_tells_order :
    let r := Expression.Registry.initial (utf8 "expr") []
    let source := utf8 "<b tal:content=\"template.Source\" tal:condition=\"true\"/>"
    let source' := utf8 "<b tal:condition=\"true\" tal:content=\"template.Source\"/>"
    ∃ tree tree' p p', Markup.parse source [] = .ok tree ∧ Markup.parse source' [] = .ok tree' ∧
      Markup.Reordered tree tree' ∧ compileTemplate r [] source 0 = .ok p ∧ compileTemplate r [] source' 0 = .ok p' ∧
      shownText? p = some (utf8 "<b>&lt;b tal:content=\"template.Source\" tal:condition=\"true\"/&gt;</b>") ∧
      shownText? p' = some (utf8 "<b>&lt;b tal:condition=\"true\" tal:content=\"template.Source\"/&gt;</b>") := by
  intro r source source'
  have hcomputed : shownTexts? r source source' = some
      (some (utf8 "<b>&lt;b tal:content=\"template.Source\" tal:condition=\"true\"/&gt;</b>"),
        some (utf8 "<b>&lt;b tal:condition=\"true\" tal:content=\"template.Source\"/&gt;</b>")) := by
    decide +kernel
  exact exists_of_shownTexts? hcomputed

end Render

end PageTemplate
