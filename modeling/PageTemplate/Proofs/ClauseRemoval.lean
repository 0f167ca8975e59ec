import PageTemplate.Proofs.Tracking
import PageTemplate.Proofs.ValueClauses

/-!
Templates that lose a clause. `LosesClause` says that a forest is another one without the attribute that puts a value in
the place of an element or of its children. If the first can be built and compiled, so can the second, to a program with
the same names and entry points and the same nodes without the clause: `Builder.exists_trimmed_of_build` and
`Module.answers_compile`.
-/

namespace PageTemplate

open Markup (Attribute ElementHead Token RawAttribute)

variable {a : Attribute}

def Markup.ElementHead.without (h : ElementHead) (a : Attribute) : ElementHead :=
  { h with
    start := { h.start with attributes := h.start.attributes.erase a.raw }
    attributes := h.attributes.erase a }

/-- The attribute puts a value in the place of an element or of its children. -/
def Markup.Attribute.Substitutes (a : Attribute) (stop : Option Markup.Tag) : Prop :=
  Directive.ofKey? a.key = some .replace ∨ Directive.ofKey? a.key = some .content ∧ stop.isSome = true

/-- The token of the expression whose value is put there. -/
abbrev Markup.Attribute.valueToken (a : Attribute) : Token := (Clause.substitution a.raw.value).1

instance (a : Attribute) (stop : Option Markup.Tag) : Decidable (a.Substitutes stop) :=
  inferInstanceAs (Decidable (_ ∨ _))

/-- The second forest is the first, in which one element has lost such an attribute. -/
inductive Markup.LosesClause (a : Attribute) : List Markup.Node → List Markup.Node → Prop where
  | here {head : ElementHead} {children : List Markup.Node} {stop : Option Markup.Tag} {rest : List Markup.Node} :
      a ∈ head.attributes → a.Substitutes stop →
      LosesClause a (.element head children stop :: rest) (.element (head.without a) children stop :: rest)
  | inside {head : ElementHead} {children children' : List Markup.Node} {stop : Option Markup.Tag}
      {rest : List Markup.Node} : LosesClause a children children' →
      LosesClause a (.element head children stop :: rest) (.element head children' stop :: rest)
  | later {n : Markup.Node} {ns ns' : List Markup.Node} : LosesClause a ns ns' → LosesClause a (n :: ns) (n :: ns')

/-! ### Directives -/

namespace Directives

variable {as : List Attribute} {acc ds : Directives} {written : List RawAttribute} {d : Directive}

/-- The second directives are the first ones without one of them. -/
structure Lack (d : Directive) (ds ds' : Directives) : Prop where
  same : ∀ d', d' ≠ d → ds'.raw? d' = ds.raw? d'
  none : ds'.raw? d = none

theorem lack_of_classify {acc' : Directives} (hacc : Lack d acc acc') (hd : acc.raw? d ≠ Option.none)
    (h : classify as acc = .ok (ds, written)) :
    ds.raw? d = acc.raw? d ∧ ∃ ds', classify as acc' = .ok (ds', written) ∧ Lack d ds ds' := by
  induction as generalizing acc acc' ds written with
  | nil =>
    cases h
    exact ⟨rfl, acc', rfl, hacc⟩
  | cons a as ih =>
    simp only [classify_cons_eq_ok] at h ⊢
    rcases h with ⟨hspace, d₁, hkey, hd₁, h⟩ | ⟨hspace, rest, rfl, h⟩
    · have hne : d₁ ≠ d := fun heq => hd (heq ▸ hd₁)
      have hcons : ∀ ds₁ : Directives, raw? ((d₁, a.raw) :: ds₁) d = ds₁.raw? d := fun ds₁ => by
        simp [hne.symm]
      have hacc' : Lack d ((d₁, a.raw) :: acc) ((d₁, a.raw) :: acc') :=
        ⟨fun d' hd' => by rw [raw?_cons, raw?_cons, hacc.same d' hd'], (hcons acc').trans hacc.none⟩
      obtain ⟨hraw, ds', hds', hlack⟩ := ih hacc' (by rwa [hcons]) h
      exact ⟨hraw.trans (hcons acc), ds', .inl ⟨hspace, d₁, hkey, (hacc.same d₁ hne).trans hd₁, hds'⟩, hlack⟩
    · obtain ⟨hraw, ds', hds', hlack⟩ := ih hacc hd h
      exact ⟨hraw, ds', .inr ⟨hspace, rest, rfl, hds'⟩, hlack⟩

theorem lack_of_classify_erase (hkey : Directive.ofKey? a.key = some d) (ha : a ∈ as)
    (h : classify as acc = .ok (ds, written)) :
    ds.raw? d = some a.raw ∧ ∃ ds', classify (as.erase a) acc = .ok (ds', written) ∧ Lack d ds ds' := by
  induction as generalizing acc ds written with
  | nil => cases ha
  | cons b as ih =>
    by_cases hb : b = a
    · subst hb
      rw [List.erase_cons_head]
      rcases classify_cons_eq_ok.1 h with ⟨_, d₁, hkey₁, hd₁, h⟩ | ⟨hspace, _⟩
      · obtain rfl : d = d₁ := Option.some.inj (hkey.symm.trans hkey₁)
        have hraw : raw? ((d, b.raw) :: acc) d = some b.raw := by simp
        have hacc : Lack d ((d, b.raw) :: acc) acc := ⟨fun d' hd' => by rw [raw?_cons, if_neg hd'], hd₁⟩
        obtain ⟨hds, hrest⟩ := lack_of_classify hacc (by simp [hraw]) h
        exact ⟨hds.trans hraw, hrest⟩
      · rw [Directive.isDirective_of_ofKey? hkey] at hspace
        cases hspace
    · have ha : a ∈ as := (List.mem_cons.1 ha).resolve_left (Ne.symm hb)
      rw [List.erase_cons_tail (by simpa using hb)]
      simp only [classify_cons_eq_ok] at h ⊢
      rcases h with ⟨hspace, d₁, hkey₁, hd₁, h⟩ | ⟨hspace, rest, rfl, h⟩
      · obtain ⟨hraw, ds', hds', hlack⟩ := ih ha h
        exact ⟨hraw, ds', .inl ⟨hspace, d₁, hkey₁, hd₁, hds'⟩, hlack⟩
      · obtain ⟨hraw, ds', hds', hlack⟩ := ih ha h
        exact ⟨hraw, ds', .inr ⟨hspace, rest, rfl, hds'⟩, hlack⟩

/-- The directive puts a value in the place of something. -/
abbrev Substituting (d : Directive) : Prop := d = .content ∨ d = .replace

namespace Lack

variable {d d' : Directive} {ds ds' : Directives}

theorem raw?_eq (h : Lack d ds ds') (hd : Substituting d) (hd' : ¬Substituting d') : ds'.raw? d' = ds.raw? d' :=
  h.same d' fun heq => hd' (heq ▸ hd)

theorem has_eq (h : Lack d ds ds') (hd : Substituting d) (hd' : ¬Substituting d') : ds'.has d' = ds.has d' := by
  rw [has, has, h.raw?_eq hd hd']

theorem clause?_eq (h : Lack d ds ds') (hd : Substituting d) (hd' : ¬Substituting d') :
    ds'.clause? d' = ds.clause? d' := by
  rw [clause?, clause?, h.raw?_eq hd hd']

theorem has_le (h : Lack d ds ds') (hd' : ds'.has d' = true) : ds.has d' = true := by
  by_cases heq : d' = d
  · rw [heq, has, h.none] at hd'
    cases hd'
  · rwa [has, h.same d' heq] at hd'

theorem checkExclusions (h : Lack d ds ds') (hd : Substituting d) {inNamespace : Bool}
    (hds : ds.checkExclusions inNamespace = .ok ()) : ds'.checkExclusions inNamespace = .ok () := by
  have hle : ∀ {d'}, ds.has d' = false → ds'.has d' = false := fun hd' =>
    Bool.eq_false_iff.2 fun htrue => Bool.eq_false_iff.1 hd' (h.has_le htrue)
  have hmessage : ds'.namesMessage = ds.namesMessage := by
    rw [namesMessage, namesMessage, h.clause?_eq hd (by simp)]
  obtain ⟨hboth, htranslate, hattributes, hdefines, hcall⟩ := checkExclusions_eq_ok.1 hds
  refine checkExclusions_eq_ok.2 ⟨fun hc => hle (hboth (h.has_le hc)), fun hm => ?_, fun ha => hattributes (h.has_le ha),
    fun hm => hle (hdefines (h.has_le hm)), fun hu => hle (hcall (h.has_le hu))⟩
  obtain ⟨hcontent, hreplace⟩ := htranslate (hmessage ▸ hm)
  exact ⟨hle hcontent, hle hreplace⟩

end Lack

end Directives

/-! ### Numbers -/

/-- The number of an expression when the one with number `x` is left out. -/
def renumber (x id : Nat) : Nat := if id < x then id else id - 1

theorem renumber_inj {x id id' : Nat} (hid : id ≠ x) (hid' : id' ≠ x) : renumber x id = renumber x id' ↔ id = id' := by
  unfold renumber
  split <;> split <;> omega

namespace Builder

open Expression (Registry)
open Directives (Lack Substituting)

variable {x k : Nat} {t : Token} {stop : Option Markup.Tag} {d : Directive} {ds ds' : Directives}
  {body : List (Node Expr)} {a : Attribute}

/-- The expressions are the same, and the second has the number that it gets when number `x` is left out. -/
structure Renumbered (x : Nat) (e e' : Expr) : Prop where
  ne : e.id ≠ x
  eq : e' = { e with id := renumber x e.id }

theorem Renumbered.self {x : Nat} {e : Expr} (h : e.id < x) : Renumbered x e e :=
  ⟨Nat.ne_of_lt h, by rw [renumber, if_pos h]⟩

/-- The expression is that of the clause with number `x`, which has this token. -/
abbrev IsClause (x : Nat) (t : Token) (e : Expr) : Prop := e = { id := x, source := t.value, token := t }

/-- The second node has nothing of the clause with number `x`, which has this token. -/
abbrev Trimmed (x : Nat) (t : Token) : Node Expr → Node Expr → Prop :=
  Node.Paired (Renumbered x) (IsClause x t)

abbrev AllTrimmed (x : Nat) (t : Token) : List (Node Expr) → List (Node Expr) → Prop :=
  Node.AllPaired (Renumbered x) (IsClause x t)

/-- Number `x` is left out, and with it the clause that has this token. -/
abbrev lag (x : Nat) (t : Token) : Track where
  counts n n' := x < n ∧ n = n' + 1
  tokens := (· = ·)
  paired := Renumbered x
  leftOut := IsClause x t
  placing := Markup.placing_eq
  draws {n n' _ _} h ht := by
    obtain ⟨hlt, rfl⟩ := h
    obtain rfl := ht
    have hid : renumber x (n' + 1) = n' := by
      unfold renumber
      split <;> omega
    exact ⟨⟨Nat.lt_succ_of_lt hlt, rfl⟩, Nat.ne_of_gt hlt, by simp only [hid]⟩

/-- What was built of a node is the same but for the clause, and so is the indentation it leaves. -/
abbrev ResultTrimmed (x : Nat) (t : Token) : Node Expr × Bytes → Node Expr × Bytes → Prop :=
  ResultCoupled (fun _ => Trimmed x t) 0

theorem exists_directives_of_node {s : Surrounding} {whitespace : Bytes} {head : ElementHead}
    {children : List Markup.Node} {stop : Option Markup.Tag} {p : Node Expr × Bytes} {st st' : State}
    (h : (node s whitespace (.element head children stop)).run st = .ok (p, st')) :
    ∃ ds written, Directives.classify head.attributes [] = .ok (ds, written) ∧
      ds.checkExclusions (Markup.Namespace.isDirective head.key.space) = .ok () := by
  rw [node, run_bind_eq_ok] at h
  obtain ⟨⟨ds, written⟩, st₁, hclassify, h⟩ := h
  rw [run_bind_eq_ok] at h
  obtain ⟨_, _, hexclusions, _⟩ := h
  exact ⟨ds, written, (run_liftM_eq_ok.1 hclassify).1, (run_liftM_eq_ok.1 hexclusions).1⟩

section Lacking

variable {d : Directive} {ds ds' : Directives} (h : ds.Lack d ds') (hd : Substituting d)

include h hd

theorem enter_eq_of_lack (s : Surrounding) : enter s ds' = enter s ds := by
  simp [enter, caseSwitch, openSwitch, checkFill, notePart, openMessage, h.clause?_eq hd, h.has_eq hd]

theorem call?_eq_of_lack : call? ds' = call? ds := by
  simp [call?, h.clause?_eq hd]

theorem inside_eq_of_lack (s : Surrounding) (switch : Nat) : inside s ds' switch = inside s ds switch := by
  simp [inside, call?_eq_of_lack h hd, h.has_eq hd]

theorem message_eq_of_lack (children : Node Expr) : message ds' children = message ds children := by
  simp [message, h.clause?_eq hd]

theorem surround_eq_of_lack (r : Registry) (whitespace : Bytes) (head : ElementHead) (a : Attribute)
    (stop : Option Markup.Tag) (written : List RawAttribute) (numbers : Nat × Nat) :
    surround r whitespace (head.without a) stop ds' written numbers =
      surround r whitespace head stop ds written numbers := by
  have hfallback : ∀ tok, fallback r (head.without a) stop written tok = fallback r head stop written tok := fun _ => rfl
  funext n
  simp [surround, wrap, controlled, enclosed, wrapping, closeMessage, h.clause?_eq hd, h.has_eq hd, hfallback]

theorem enclose_eq_of_lack (r : Registry) (head : ElementHead) (a : Attribute) {stop : Option Markup.Tag}
    (written : List RawAttribute) {forceEnd forceEnd' : Bool} (hstop : stop.isSome = true ∨ forceEnd' = forceEnd)
    (body : Node Expr) :
    enclose r (head.without a) stop ds' written forceEnd' body = enclose r head stop ds written forceEnd body := by
  have htags : ∀ attributes, tagsWith (head.without a) stop attributes forceEnd' =
      tagsWith head stop attributes forceEnd := by
    intro attributes
    cases stop with
    | some tag => rfl
    | none => rw [hstop.resolve_left (by simp)]; rfl
  have hattributes : attributes r ds' written = attributes r ds written := by
    simp [attributes, dynamicSlots, translatedSlots, h.clause?_eq hd]
  have htagged : ∀ start stop, tagged r ds' head.name start body stop = tagged r ds head.name start body stop := by
    simp [tagged, h.clause?_eq hd]
  unfold enclose tags
  simp only [htags, hattributes]
  exact congrArg _ (funext fun p => htagged p.1 p.2)

end Lacking

/-! ### Building without the clause -/

variable (r : Registry)

theorem trimmed_self {n : Node Expr} (hk : k ≤ x) (h : Settled k n) : Trimmed x t n n :=
  Node.SelfPaired.paired fun m hm e he => .self (Nat.lt_of_lt_of_le ((h m hm).reads e he) hk)

theorem allTrimmed_self {ns : List (Node Expr)} (hk : k ≤ x) (h : ∀ n ∈ ns, Settled k n) :
    AllTrimmed x t ns ns :=
  .of_forall₂ (List.forall₂_same.2 fun n hn => trimmed_self hk (h n hn))

theorem slotsTrimmed_self {x k : Nat} {t : Token} (hk : k ≤ x) :
    ∀ {ss : List (Bytes × Node Expr)}, (∀ q ∈ ss, q.1 ≠ [] ∧ Settled k q.2) →
      Node.SlotsPaired (Renumbered x) (IsClause x t) ss ss
  | [], _ => .nil
  | (_, _) :: _, h =>
    .cons (trimmed_self hk (h _ List.mem_cons_self).2) (slotsTrimmed_self hk fun q hq => h q (List.mem_cons_of_mem _ hq))

/-- Both steps come to the same, or the first has drawn one number more, for the clause with this token. -/
def Departs (k : Nat) (t : Token) {α : Type} (Q : Nat → α → α → Prop) (act act' : Build α) : Prop :=
  ∀ st a s, k ≤ st.nextExpr → st.Tidy → act.run st = .ok (a, s) → act'.run st = .ok (a, s) ∨
    ∃ x a' s', k ≤ x ∧ act'.run st = .ok (a', s') ∧ Q x a a' ∧ Behind (lag x t) s s'

namespace Departs

variable {α β : Type} {k : Nat} {t : Token} {Q : Nat → α → α → Prop} {R : Nat → β → β → Prop}
variable {f : α → Build β}

theorem same (act : Build α) : Departs k t Q act act := fun _ _ _ _ _ hrun => .inl hrun

theorem bind {act act' : Build α} (hact : Departs k t Q act act')
    (hf : ∀ x a a', k ≤ x → Q x a a' → Tracks (lag x t) (R x) (f a) (f a')) : Departs k t R (act >>= f) (act' >>= f) := by
  intro st b s hk hst hrun
  obtain ⟨a, s₁, hfirst, hrest⟩ := run_bind_eq_ok.1 hrun
  rcases hact st a s₁ hk hst hfirst with hsame | ⟨x, a', s₁', hx, hfirst', hQ, hs₁⟩
  · exact .inl (run_bind_eq_ok.2 ⟨a, s₁, hsame, hrest⟩)
  · obtain ⟨b', s', hrest', hR, hs⟩ := hf x a a' hx hQ s₁ s₁' b s hs₁ hrest
    exact .inr ⟨x, b', s', hx, run_bind_eq_ok.2 ⟨a', s₁', hfirst', hrest'⟩, hR, hs⟩

theorem after {P : Pairs α} {act : Build α} {f' : α → Build β} (hact : Stepping Tidies k P act act)
    (hf : ∀ k' a b, k ≤ k' → From k' P a b → Departs k' t R (f a) (f' a)) : Departs k t R (act >>= f) (act >>= f') := by
  intro st b s hk hst hrun
  obtain ⟨a, s₁, hfirst, hrest⟩ := run_bind_eq_ok.1 hrun
  obtain ⟨hstep, c, hP⟩ := hact st a s₁ hk hfirst
  have hk₁ : k ≤ s₁.nextExpr := Nat.le_trans hk hstep.le
  rcases hf s₁.nextExpr a c hk₁ hP s₁ b s (Nat.le_refl _) (hstep.tidy hst) hrest with hsame | ⟨x, b', s', hx, hrest', hR, hs⟩
  · exact .inl (run_bind_eq_ok.2 ⟨a, s₁, hfirst, hsame⟩)
  · exact .inr ⟨x, b', s', Nat.le_trans hk₁ hx, run_bind_eq_ok.2 ⟨a, s₁, hfirst, hrest'⟩, hR, hs⟩

end Departs

/-- The clause itself: what the template has is there in both ways. -/
theorem departs_substitute (tok : Token) {kept : Node Expr} (translate : Bool) (hkept : Settled k kept) :
    Departs k (Clause.substitution tok).1 (fun x => Trimmed x (Clause.substitution tok).1)
      (substitute r tok kept translate) (pure kept) := by
  intro st n s hk hst hrun
  obtain ⟨e, s₁, he, hrun⟩ := run_bind_eq_ok.1 hrun
  cases hrun
  obtain ⟨rfl, rfl⟩ := exists_of_expression he
  refine .inr ⟨st.nextExpr, kept, st, hk, rfl, .kept _ _ rfl (trimmed_self hk hkept), ?_⟩
  exact ⟨⟨Nat.lt_succ_self _, rfl⟩, rfl, slotsTrimmed_self (Nat.le_refl _) hst, List.forall₂_same.2 fun _ _ => rfl, rfl⟩

section Clause

variable (head : ElementHead) (a : Attribute) (written : List RawAttribute)
  (hd : d = .replace ∨ d = .content ∧ stop.isSome = true) (hlack : ds.Lack d ds') (hraw : ds.raw? d = some a.raw)
include hd hlack hraw

theorem departs_element {children : Node Expr} (hchildren : Settled k children) :
    Departs k a.valueToken (fun x => Trimmed x a.valueToken)
      (element r head stop ds written children) (element r (head.without a) stop ds' written children) := by
  have hclause : ds.clause? d = some a.raw.value := by rw [Directives.clause?, hraw]; rfl
  have hnone : ds'.clause? d = none := by rw [Directives.clause?, hlack.none]; rfl
  rw [element, element]
  rcases hd with rfl | ⟨rfl, hstop⟩
  · -- The value stands in the place of the whole element, which is built before it.
    have hd : Substituting .replace := .inr rfl
    have hcontent : content r ds' children = content r ds children := by
      rw [content, content, message_eq_of_lack hlack hd, hlack.has_eq hd (by simp), Directives.clause?, Directives.clause?,
        hlack.same .content (by simp)]
    have hforce : ds'.has .content = ds.has .content := by rw [Directives.has, Directives.has, hlack.same .content (by simp)]
    have hreplaced : ∀ n, replaced r ds n = substitute r a.raw.value n (ds.has .translate) ∧ replaced r ds' n = pure n :=
      fun n => by rw [replaced, replaced, hclause, hnone]; exact ⟨rfl, rfl⟩
    rw [hcontent]
    have hC := assembling_settled r
    refine .after (hC.content (.refl ds) (fun _ _ _ => trivial) (Settled.ordinary.after hchildren))
      fun k' body _ _ hbody => ?_
    rw [enclose_eq_of_lack hlack hd r head a written (.inr hforce) body]
    refine .after (hC.enclose (admits_plain r head ds written) (.refl ..) _ hbody) fun k' n _ _ hn => ?_
    rw [(hreplaced n).1, (hreplaced n).2]
    exact departs_substitute r a.raw.value _ (hn k' (Nat.le_refl k'))
  · -- The value stands in the place of the children; the tags are built after it.
    have hd : Substituting .content := .inl rfl
    have hcontent : content r ds children = substitute r a.raw.value (message ds children) (ds.has .translate) := by
      rw [content, hclause]
    have hcontent' : content r ds' children = pure (message ds children) := by
      rw [content, hnone, message_eq_of_lack hlack hd]
    have hreplaced : replaced r ds' = replaced r ds := by
      funext n
      rw [replaced, replaced, hlack.has_eq hd (by simp), Directives.clause?, Directives.clause?,
        hlack.same .replace (by simp)]
    have henclose : ∀ body, enclose r (head.without a) stop ds' written (ds'.has .content) body =
        enclose r head stop ds written (ds.has .content) body :=
      enclose_eq_of_lack hlack hd r head a written (.inl hstop)
    simp only [hcontent, hcontent', hreplaced, henclose]
    refine .bind (departs_substitute r a.raw.value _ ((assembling_settled r).message (.refl ds)
      (Settled.ordinary.after hchildren) k (Nat.le_refl k))) fun x n n' _ hn => ?_
    have hC := assembling_tracking r (lag x a.valueToken)
    exact Tracks.of_from (Q := fun _ => Trimmed x _) (hC.bind (hC.enclose (admits_tracking r _ head ds written) (.refl ..)
      _ fun _ _ => hn) fun _ _ _ _ hn => hC.replaced (.refl ds) (fun _ _ _ => trivial) hn)

theorem departs_elementOrCall (hbody : ∀ c ∈ body, Settled k c) :
    Departs k a.valueToken (fun x => Trimmed x a.valueToken)
      (elementOrCall r head stop ds written body) (elementOrCall r (head.without a) stop ds' written body) := by
  have hsubstituting : Substituting d := hd.symm.imp (·.1) id
  unfold elementOrCall
  rw [call?_eq_of_lack hlack hsubstituting]
  split
  · exact .same _
  · have hsequence : Settled k (.sequence body) := .around body rfl (by simp [Drawn, Node.reads]) nofun hbody
    exact departs_element r head a written hd hlack hraw hsequence

theorem departs_finish (whitespace : Bytes) (numbers : Nat × Nat) (hbody : ∀ c ∈ body, Settled k c) :
    Departs k a.valueToken (fun x => ResultTrimmed x a.valueToken)
      (finish r whitespace head stop ds written numbers body)
      (finish r whitespace (head.without a) stop ds' written numbers body) := by
  unfold finish
  rw [surround_eq_of_lack hlack (hd.symm.imp (·.1) id)]
  exact .bind (departs_elementOrCall r head a written hd hlack hraw hbody) fun x _ _ _ hn =>
    .of_from ((assembling_tracking r _).surround (admits_tracking r _ head ds written) (.refl ..) whitespace numbers
      fun _ _ => hn)

end Clause

theorem departs_node (s : Surrounding) (whitespace : Bytes) {head : ElementHead} (children : List Markup.Node)
    (ha : a ∈ head.attributes) (hsubstitutes : a.Substitutes stop) :
    Departs k a.valueToken (fun x => ResultTrimmed x a.valueToken)
      (node s whitespace (.element head children stop)) (node s whitespace (.element (head.without a) children stop)) := by
  obtain ⟨d, hkey, hd⟩ : ∃ d, Directive.ofKey? a.key = some d ∧ (d = .replace ∨ d = .content ∧ stop.isSome = true) := by
    rcases hsubstitutes with hkey | ⟨hkey, hstop⟩
    · exact ⟨.replace, hkey, .inl rfl⟩
    · exact ⟨.content, hkey, .inr ⟨rfl, hstop⟩⟩
  have hsubstituting : Substituting d := hd.symm.imp (·.1) id
  intro st p st' hk hst hrun
  obtain ⟨ds, written, hclassify, hexclusions⟩ := exists_directives_of_node hrun
  obtain ⟨hraw, ds', hclassify', hlack⟩ := Directives.lack_of_classify_erase hkey ha hclassify
  have hexclusions' := hlack.checkExclusions hsubstituting hexclusions
  rw [node_element_eq s whitespace head children stop hclassify hexclusions] at hrun
  rw [node_element_eq s whitespace (head.without a) children stop hclassify' hexclusions',
    enter_eq_of_lack hlack hsubstituting]
  simp only [inside_eq_of_lack hlack hsubstituting]
  have hC := assembling_settled s.registry
  refine Departs.after (hC.enter s (.refl ds)) (fun k numbers _ _ _ => ?_) st p st' hk hst hrun
  refine .after (hC.nodes (s := inside s ds numbers.2) [] k (.refl children) (fun _ _ => trivial) fun _ _ => trivial)
    fun k' body _ _ hbody => ?_
  exact departs_finish s.registry head a written hd hlack hraw whitespace numbers
    (forall_of_forall₂ (hbody k' (Nat.le_refl k')))

theorem settled_node (s : Surrounding) (whitespace : Bytes) (m : Markup.Node) :
    Stepping Tidies k (ResultCoupled fun n m _ => Settled n m) (node s whitespace m) (node s whitespace m) := by
  have hC := assembling_settled s.registry
  cases m with
  | text t => exact hC.textStep whitespace trivial rfl
  | element head children stop =>
    refine hC.elementStep whitespace trivial (.refl head stop) fun ds switchId k => ?_
    exact hC.nodes (s := inside s ds switchId) [] k (.refl children) (fun _ _ => trivial) fun _ _ => trivial

theorem tracks_cons (s : Surrounding) {p p' : Node Expr × Bytes} (hp : ResultTrimmed x t p p')
    (tree : List Markup.Node) : Tracks (lag x t) (AllTrimmed x t) (do return p.1 :: (← nodes s p.2 tree))
      (do return p'.1 :: (← nodes s p'.2 tree)) := by
  rw [hp.2]
  exact .bind (tracks_nodes (lag x t) s p.2 (.refl tree)) fun _ _ hms => .pure (.cons hp.1 hms)

/-- A template without the clause is built as with it, but for the number that the clause has drawn. -/
theorem departs_nodes {tree tree' : List Markup.Node} (h : Markup.LosesClause a tree tree') (s : Surrounding)
    (whitespace : Bytes) (k : Nat) :
    Departs k a.valueToken (fun x => AllTrimmed x a.valueToken)
      (nodes s whitespace tree) (nodes s whitespace tree') := by
  induction h generalizing s whitespace k with
  | @here head children stop rest ha hsubstitutes =>
    rw [nodes, nodes]
    exact .bind (departs_node s whitespace children ha hsubstitutes) fun x p p' _ hp => tracks_cons s hp rest
  | @inside head children children' stop rest _ ih =>
    rw [nodes, nodes]
    refine .bind (Q := fun x => ResultTrimmed x a.valueToken) (fun st p st' hk hst hrun => ?_)
      fun x p p' _ hp => tracks_cons s hp rest
    obtain ⟨ds, written, hclassify, hexclusions⟩ := exists_directives_of_node hrun
    rw [node_element_eq s whitespace head _ stop hclassify hexclusions] at hrun ⊢
    refine Departs.after ((assembling_settled s.registry).enter s (.refl ds)) (fun k numbers _ _ _ => ?_) st p st' hk
      hst hrun
    exact .bind (ih (inside s ds numbers.2) [] k) fun x _ _ _ hbody =>
      .of_from ((assembling_tracking s.registry _).finish (admits_tracking s.registry _ head ds written) (.refl ..)
        whitespace numbers fun _ _ => hbody.forall₂)
  | @later n ns ns' _ ih =>
    rw [nodes, nodes]
    refine .after (settled_node s whitespace n) fun k p _ _ hp => ?_
    exact .bind (ih s p.2 k) fun x ms ms' hx hms => .pure (.cons (trimmed_self hx (hp k (Nat.le_refl k)).1) hms)

theorem exists_trimmed_of_build {tree tree' : List Markup.Node} (h : Markup.LosesClause a tree tree') {r : Registry}
    {filename source : Bytes} {m : Module} (hbuild : build r filename source tree = .ok m) :
    ∃ x m', build r filename source tree' = .ok m' ∧
      m.Paired (Renumbered x) (IsClause x a.valueToken) m' ∧ m.source = source ∧ m'.source = source := by
  rw [build_eq] at hbuild ⊢
  cases hrun : (nodes { registry := r } [] tree).run {} with
  | error f =>
    rw [hrun] at hbuild
    cases hbuild
  | ok q =>
    obtain ⟨body, st⟩ := q
    rw [hrun] at hbuild
    have htidy : State.Tidy {} := by simp [State.Tidy]
    rcases departs_nodes h { registry := r } [] 0 {} body st (Nat.zero_le _) htidy hrun with
      hsame | ⟨x, body', st', _, hrun', hbody, hbehind⟩
    · -- The clause has drawn no number: then it is as if a number was left out that nothing has.
      obtain ⟨htidies, hsettled⟩ := settled_of_nodes hrun
      rw [hsame]
      exact ⟨st.nextExpr, answers_assemble filename source source (allTrimmed_self (Nat.le_refl _) hsettled)
        (List.forall₂_same.2 fun _ _ => rfl)
        (slotsTrimmed_self (Nat.le_refl _) (htidies.tidy htidy)) m hbuild⟩
    · rw [hrun']
      exact ⟨x, answers_assemble filename source source hbody hbehind.calls hbehind.macros m hbuild⟩

end Builder

/-- The expressions are the same, and the second has the number that it gets when number `x` is left out. -/
structure Compiled.Renumbered (x : Nat) (c c' : Compiled) : Prop where
  ne : c.id ≠ x
  eq : c' = { c with id := renumber x c.id }

/-- The expression has number `x` and stands here. -/
structure Compiled.IsAt (x : Nat) (site : Site) (c : Compiled) : Prop where
  id : c.id = x
  site : c.site = site

/-- The second program is the first without a clause whose expression has this number and site. -/
abbrev Program.Trimmed (x : Nat) (site : Site) : Program → Program → Prop :=
  Program.Paired (Compiled.Renumbered x) (Compiled.IsAt x site)

namespace Module

open Expression (Registry)

/-- The site of the expression of a clause that puts a value in the place of something. -/
def clauseSite (m : Module) (a : Attribute) : Site :=
  let t := (Clause.substitution a.raw.value).1
  m.siteOf { id := 0, source := t.value, token := t }

theorem answers_compileExpr {m m' : Module} (hfilename : m'.filename = m.filename) (hsource : m'.source = m.source)
    (r : Registry) {x : Nat} {e e' : Expr} (h : Builder.Renumbered x e e') :
    Answers (Compiled.Renumbered x) (m.compileExpr r e) (m'.compileExpr r e') := by
  obtain ⟨hne, rfl⟩ := h
  unfold compileExpr
  dsimp only
  split
  · exact .ok ⟨hne, by simp only [siteOf, hfilename, hsource]⟩
  · exact .error _ _

theorem answers_compile_trimmed {m m' : Module} {x : Nat}
    (h : m.Paired (Builder.Renumbered x) (Builder.IsClause x a.valueToken) m') (r : Registry)
    (hsource : m'.source = m.source) (settings : Nat) :
    Answers (fun p p' => p.Trimmed x (m.clauseSite a) p' ∧ p.source = m.source ∧ p'.source = m'.source)
      (m.compile r settings) (m'.compile r settings) := by
  refine answers_compile (fun e e' he => answers_compileExpr h.filename hsource r he) ?_ h settings
  rintro e c rfl hc
  unfold compileExpr at hc
  split at hc
  · cases hc
    exact ⟨rfl, rfl⟩
  · cases hc

end Module

end PageTemplate
