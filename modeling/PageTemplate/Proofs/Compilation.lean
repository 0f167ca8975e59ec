import Mathlib.Data.List.Forall2
import PageTemplate.Proofs.Nodes
import PageTemplate.Template

/-!
Compiling as a map. The expressions of a node are compiled one by one and nothing else of the node changes, so a compiled
node is the image of the node under a function on expressions. `Node.traverse_yields` says so of nodes, and
`exists_module_of_compileTemplate` of templates.
-/

namespace PageTemplate

/-- If the computation succeeds, its result has a property, and if it fails, the failure is one of some. -/
def Yields {α : Type} (Fine : Failure → Prop) (Q : α → Prop) (x : Except Failure α) : Prop :=
  (∀ a, x = .ok a → Q a) ∧ ∀ f, x = .error f → Fine f

namespace Yields

variable {α β : Type} {Fine : Failure → Prop} {Q : α → Prop} {R : β → Prop}
variable {x : Except Failure α} {f : α → Except Failure β}

theorem ok {a : α} (h : Q a) : Yields Fine Q (.ok a) := by
  refine ⟨fun a' h' => ?_, nofun⟩
  cases h'
  exact h

theorem error {f : Failure} (hf : Fine f) : Yields Fine Q (.error f) := by
  refine ⟨nofun, fun f' h' => ?_⟩
  cases h'
  exact hf

theorem bind (hx : Yields Fine Q x) (hf : ∀ a, Q a → Yields Fine R (f a)) : Yields Fine R (x >>= f) := by
  cases x with
  | ok a => exact hf a (hx.1 a rfl)
  | error e => exact error (hx.2 e rfl)

theorem bind_eq {a : α} (hx : Yields Fine (· = a) x) (hf : Yields Fine R (f a)) : Yields Fine R (x >>= f) :=
  bind hx fun _ h => h ▸ hf

theorem known_bind (hx : Yields Fine (fun a => x = .ok a → Q a) x) (hf : ∀ a, Q a → Yields Fine R (f a)) :
    Yields Fine R (x >>= f) := by
  cases x with
  | ok a => exact hf a (hx.1 a rfl rfl)
  | error e => exact error (hx.2 e rfl)

theorem of_imp {Q₁ : α → Prop} (hQ : ∀ a, Q a → Q₁ a) (h : Yields Fine Q x) :
    Yields Fine Q₁ x :=
  ⟨fun a ha => hQ a (h.1 a ha), h.2⟩

theorem mapM_forall₂ {S : α → β → Prop} {l : List α} (hf : ∀ a, Yields Fine (S a) (f a)) :
    Yields Fine (List.Forall₂ S l) (l.mapM f) := by
  induction l with
  | nil => exact ok .nil
  | cons a l ih =>
    rw [List.mapM_cons]
    exact bind (hf a) fun _ hb => bind ih fun _ hbs => ok (.cons hb hbs)

theorem forIn {l : List α} {b : β} {f : α → β → Except Failure (ForInStep β)}
    (hf : ∀ a b, Yields Fine (fun _ => True) (f a b)) : Yields Fine (fun _ => True) (ForIn.forIn l b f) := by
  induction l generalizing b with
  | nil => exact ok trivial
  | cons a l ih =>
    rw [List.forIn_cons]
    refine bind (hf a b) fun step _ => ?_
    cases step with
    | done b => exact ok trivial
    | yield b => exact ih

end Yields

/-- If the first computation succeeds, so does the second, and the results are related. -/
def Answers {α β : Type} (Q : α → β → Prop) (x : Except Failure α) (y : Except Failure β) : Prop :=
  ∀ a, x = .ok a → ∃ b, y = .ok b ∧ Q a b

namespace Answers

variable {α β α' β' : Type} {Q : α → β → Prop} {R : α' → β' → Prop}

theorem ok {a : α} {b : β} (h : Q a b) : Answers Q (.ok a) (.ok b) := by
  intro a' ha'
  cases ha'
  exact ⟨b, rfl, h⟩

theorem error (f : Failure) (y : Except Failure β) : Answers Q (.error f) y := nofun

theorem bind {x : Except Failure α} {y : Except Failure β} {f : α → Except Failure α'} {g : β → Except Failure β'}
    (hx : Answers Q x y) (hf : ∀ a b, Q a b → Answers R (f a) (g b)) : Answers R (x >>= f) (y >>= g) := by
  cases x with
  | error e => exact error e _
  | ok a =>
    obtain ⟨b, rfl, hab⟩ := hx a rfl
    exact hf a b hab

theorem map {x : Except Failure α} {y : Except Failure β} {k : α → α'} {k' : β → β'} (hx : Answers Q x y)
    (h : ∀ {a b}, Q a b → R (k a) (k' b)) : Answers R (x >>= fun a => pure (k a)) (y >>= fun b => pure (k' b)) :=
  bind hx fun _ _ hab => ok (h hab)

theorem mapM {f : α → Except Failure α'} {g : β → Except Failure β'} (hf : ∀ a b, Q a b → Answers R (f a) (g b))
    {l : List α} {l' : List β} (h : List.Forall₂ Q l l') : Answers (List.Forall₂ R) (l.mapM f) (l'.mapM g) := by
  induction h with
  | nil => exact ok .nil
  | cons hab _ ih =>
    rw [List.mapM_cons, List.mapM_cons]
    exact bind (hf _ _ hab) fun _ _ hfirst => map ih (.cons hfirst)

end Answers

theorem exists_of_forall₂ {α β : Type} {S : α → β → Prop} {l : List α} {l' : List β} (h : List.Forall₂ S l l')
    {b : β} (hb : b ∈ l') : ∃ a ∈ l, S a b := by
  induction h with
  | nil => simp at hb
  | cons hab _ ih =>
    rcases List.mem_cons.1 hb with rfl | hb
    · exact ⟨_, List.mem_cons_self, hab⟩
    · obtain ⟨a, ha, hab⟩ := ih hb
      exact ⟨a, List.mem_cons_of_mem _ ha, hab⟩

theorem forall_of_forall₂ {α β : Type} {P : α → Prop} {l : List α} {l' : List β}
    (h : List.Forall₂ (fun a _ => P a) l l') : ∀ a ∈ l, P a := fun _ ha =>
  (exists_of_forall₂ h.flip ha).elim fun _ h => h.2

variable {ε δ : Type}

/-- The part with another expression in the place of its own. -/
def Part.map (g : ε → δ) : Part ε → Part δ
  | .literal s => .literal s
  | .expr e => .expr (g e)

@[simp] theorem Part.exprs_map (g : ε → δ) (p : Part ε) : (p.map g).exprs = p.exprs.map g := by
  cases p <;> rfl

@[simp] theorem Part.flatMap_exprs_map (g : ε → δ) (ps : List (Part ε)) :
    (ps.map (Part.map g)).flatMap Part.exprs = (ps.flatMap Part.exprs).map g := by
  rw [List.flatMap_map, List.map_flatMap]
  congr 1
  funext p
  exact p.exprs_map g

/-- The operand with other expressions in the place of its own. -/
def Operand.map (g : ε → δ) : Operand ε → Operand δ
  | .literal s => .literal s
  | .expr e => .expr (g e)
  | .interpolated s parts => .interpolated s (parts.map (Part.map g))
  | .isDefault e => .isDefault (g e)
  | .not o => .not (o.map g)
  | .missing => .missing

@[simp] theorem Operand.exprs_map (g : ε → δ) (o : Operand ε) : (o.map g).exprs = o.exprs.map g := by
  induction o with
  | literal _ | missing | expr _ | isDefault _ => rfl
  | interpolated _ parts => exact Part.flatMap_exprs_map g parts
  | not o ih => exact ih

namespace Node

mutual

/-- The node with other expressions in the place of its own. -/
def map (g : ε → δ) : Node ε → Node δ
  | absent => .absent
  | sequence nodes => .sequence (mapAll g nodes)
  | text s => .text s
  | interpolation s parts => .interpolation s (parts.map (Part.map g))
  | element n start body stop => .element n (start.map g) (body.map g) (stop.map g)
  | startTag lead n attributes tail => .startTag lead n (mapAll g attributes) tail
  | attr a => .attr { a with value := a.value.map g }
  | attributeMap e exclude => .attributeMap (g e) exclude
  | condition test yes no => .condition (test.map g) (yes.map g) (no.map g)
  | loop names e body whitespace => .loop names (g e) (body.map g) whitespace
  | define assignments body => .define (assignments.map fun a => { a with expr := g a.expr }) (body.map g)
  | cache exprs body => .cache (exprs.map g) (body.map g)
  | content e raw translated => .content (g e) raw translated
  | translate msgid body => .translate msgid (body.map g)
  | name n body => .name n (body.map g)
  | domain n body => .domain n (body.map g)
  | onError body fallback => .onError (body.map g) (fallback.map g)
  | macroDef n body => .macroDef n (body.map g)
  | useInternal n slots extend => .useInternal n (mapSlots g slots) extend
  | useExternal e slots extend => .useExternal (g e) (mapSlots g slots) extend
  | fillSlot n body => .fillSlot n (body.map g)
  | defineSlot n body => .defineSlot n (body.map g)
  | switch id e body => .switch id (g e) (body.map g)
  | case id value body => .case id (value.map g) (body.map g)
  | omitted => .omitted
  | module filename body => .module filename (body.map g)

def mapAll (g : ε → δ) : List (Node ε) → List (Node δ)
  | [] => []
  | n :: ns => n.map g :: mapAll g ns

def mapSlots (g : ε → δ) : List (Bytes × Node ε) → List (Bytes × Node δ)
  | [] => []
  | (s, n) :: rest => (s, n.map g) :: mapSlots g rest

end

variable (g : ε → δ)

theorem mapAll_eq (ns : List (Node ε)) : mapAll g ns = ns.map (map g) := by
  induction ns with
  | nil => rfl
  | cons n ns ih => rw [mapAll, ih, List.map_cons]

theorem mapSlots_eq (slots : List (Bytes × Node ε)) : mapSlots g slots = slots.map fun s => (s.1, s.2.map g) := by
  induction slots with
  | nil => rfl
  | cons s slots ih => rw [mapSlots, ih, List.map_cons]

@[simp] theorem isPresent_map (n : Node ε) : (n.map g).isPresent = n.isPresent := by
  cases n <;> rfl

@[simp] theorem reads_map (n : Node ε) : (n.map g).reads = n.reads.map g := by
  cases n with
  | interpolation _ parts => exact Part.flatMap_exprs_map g parts
  | attr a => exact a.value.exprs_map g
  | condition test _ _ => exact test.exprs_map g
  | define assignments _ => simp [map, reads]
  | case _ value _ => cases value <;> rfl
  | _ => rfl

@[simp] theorem parts_map (n : Node ε) : (n.map g).parts = n.parts.map (map g) := by
  cases n <;> simp [map, parts, mapAll_eq, mapSlots_eq, Function.comp_def]

@[simp] theorem all_map (n : Node ε) : (n.map g).all = n.all.map (map g) := by
  induction n using parts_induction with
  | node n ih =>
    by_cases h : n.isPresent = true
    · rw [all_eq h, all_eq (by rwa [isPresent_map]), List.map_cons, parts_map, List.flatMap_map, List.map_flatMap]
      exact congrArg (List.cons _) (List.flatMap_congr ih)
    · cases n <;> first | rfl | exact absurd rfl h

end Node

theorem Yields.mapM_eq {α β : Type} {Fine : Failure → Prop} {h : α → Except Failure β} {k : α → β} {l : List α}
    (hh : ∀ a, Yields Fine (· = k a) (h a)) : Yields Fine (· = l.map k) (l.mapM h) := by
  induction l with
  | nil => exact .ok rfl
  | cons a l ih =>
    rw [List.mapM_cons]
    exact .bind_eq (hh a) (.bind_eq ih (.ok rfl))

section Traverse

/-- What an operand that is missing is refused with. -/
abbrev missingValue : Failure := .plain (utf8 "unsupported value <nil>")

variable {Fine : Failure → Prop} {f : ε → Except Failure δ} {g : ε → δ} (hf : ∀ e, Yields Fine (· = g e) (f e))
include hf

theorem Part.traverse_yields (p : Part ε) : Yields Fine (· = p.map g) (p.traverse f) := by
  cases p with
  | literal s => exact .ok rfl
  | expr e => exact .bind_eq (hf e) (.ok rfl)

theorem Operand.traverse_yields (hmissing : Fine missingValue) (o : Operand ε) : Yields Fine (· = o.map g)
    (o.traverse f) := by
  induction o with
  | literal s => exact .ok rfl
  | expr e | isDefault e => exact .bind_eq (hf e) (.ok rfl)
  | interpolated s parts => exact .bind_eq (.mapM_eq (Part.traverse_yields hf)) (.ok rfl)
  | not o ih => exact .bind_eq ih (.ok rfl)
  | missing => exact .error hmissing

omit hf in
mutual

theorem Node.traverse_yields (hf : ∀ e, Yields Fine (· = g e) (f e)) (hmissing : Fine missingValue) :
    ∀ n : Node ε, Yields Fine (· = n.map g) (n.traverse f)
  | .absent | .text _ | .omitted => .ok rfl
  | .sequence nodes | .startTag _ _ nodes _ => .bind_eq (Node.traverseAll_yields hf hmissing nodes) (.ok rfl)
  | .interpolation _ parts => .bind_eq (.mapM_eq (Part.traverse_yields hf)) (.ok rfl)
  | .attr a => .bind_eq (a.value.traverse_yields hf hmissing) (.ok rfl)
  | .attributeMap e _ | .content e _ _ => .bind_eq (hf e) (.ok rfl)
  | .element _ start body stop => .bind_eq (Node.traverse_yields hf hmissing start)
      (.bind_eq (Node.traverse_yields hf hmissing body)
      (.bind_eq (Node.traverse_yields hf hmissing stop) (.ok rfl)))
  | .condition test yes no => .bind_eq (test.traverse_yields hf hmissing) (.bind_eq (Node.traverse_yields hf hmissing yes)
      (.bind_eq (Node.traverse_yields hf hmissing no) (.ok rfl)))
  | .onError body fallback =>
    .bind_eq (Node.traverse_yields hf hmissing body) (.bind_eq (Node.traverse_yields hf hmissing fallback) (.ok rfl))
  | .loop _ e body _ | .switch _ e body => .bind_eq (hf e) (.bind_eq (Node.traverse_yields hf hmissing body) (.ok rfl))
  | .define assignments body => by
    have hassignments : Yields Fine (· = assignments.map fun a => { a with expr := g a.expr })
        (assignments.mapM fun a => do return { a with expr := ← f a.expr }) :=
      .mapM_eq fun a => .bind_eq (hf a.expr) (.ok rfl)
    exact .bind_eq hassignments (.bind_eq (Node.traverse_yields hf hmissing body) (.ok rfl))
  | .cache exprs body => .bind_eq (.mapM_eq hf) (.bind_eq (Node.traverse_yields hf hmissing body) (.ok rfl))
  | .case _ value body => by
    have hvalue : Yields Fine (· = value.map g) (value.mapM f) := by
      cases value with
      | none => exact .ok rfl
      | some e => exact .bind_eq (hf e) (.ok rfl)
    exact .bind_eq hvalue (.bind_eq (Node.traverse_yields hf hmissing body) (.ok rfl))
  | .translate _ body | .name _ body | .domain _ body | .macroDef _ body | .fillSlot _ body | .defineSlot _ body
  | .module _ body => .bind_eq (Node.traverse_yields hf hmissing body) (.ok rfl)
  | .useInternal _ slots _ => .bind_eq (Node.traverseSlots_yields hf hmissing slots) (.ok rfl)
  | .useExternal e slots _ => .bind_eq (hf e) (.bind_eq (Node.traverseSlots_yields hf hmissing slots) (.ok rfl))

theorem Node.traverseAll_yields (hf : ∀ e, Yields Fine (· = g e) (f e)) (hmissing : Fine missingValue) :
    ∀ ns : List (Node ε), Yields Fine (· = Node.mapAll g ns) (Node.traverseAll f ns)
  | [] => .ok rfl
  | n :: ns => .bind_eq (Node.traverse_yields hf hmissing n) (.bind_eq (Node.traverseAll_yields hf hmissing ns) (.ok rfl))

theorem Node.traverseSlots_yields (hf : ∀ e, Yields Fine (· = g e) (f e)) (hmissing : Fine missingValue) :
    ∀ slots : List (Bytes × Node ε), Yields Fine (· = Node.mapSlots g slots) (Node.traverseSlots f slots)
  | [] => .ok rfl
  | (_, n) :: slots => .bind_eq (Node.traverse_yields hf hmissing n)
      (.bind_eq (Node.traverseSlots_yields hf hmissing slots) (.ok rfl))

end

end Traverse

/-- The second node is the first with what its expressions are compiled to. -/
structure Node.CompilesTo (f : ε → Except Failure δ) (g : ε → δ) (n : Node ε) (n' : Node δ) : Prop where
  eq_map : n' = n.map g
  reads : n.Every fun m => ∀ e ∈ m.reads, f e = .ok (g e)

namespace Node.CompilesTo

variable {f : ε → Except Failure δ} {g : ε → δ} {n : Node ε} {n' : Node δ}

theorem exists_of_mem (h : n.CompilesTo f g n') {m' : Node δ} (hm' : m' ∈ n'.all) : ∃ m ∈ n.all, m.CompilesTo f g m' := by
  rw [h.eq_map, all_map] at hm'
  obtain ⟨m, hm, rfl⟩ := List.mem_map.1 hm'
  exact ⟨m, hm, rfl, fun k hk => h.reads k (all_subset_of_mem hm hk)⟩

/-- It makes no difference what stands for expressions that cannot be compiled, so there are none. -/
theorem of_traverse (h : n.traverse f = .ok n') (hg : ∀ e d, f e = .ok d → d = g e) {a b : δ} (hab : a ≠ b) :
    n.CompilesTo f g n' := by
  have hmap : ∀ k : ε → δ, (∀ e d, f e = .ok d → d = k e) → n' = n.map k := fun k hk =>
    (Node.traverse_yields (fun e => ⟨hk e, fun _ _ => trivial⟩) trivial n : Yields (fun _ => True) _ _).1 n' h
  have hother : ∀ c e d, f e = .ok d → d = (f e).toOption.getD c := by
    intro c e d hd
    rw [hd]
    rfl
  refine ⟨hmap g hg, fun m hm e he => ?_⟩
  cases hfe : f e with
  | ok d => rw [hg e d hfe]
  | error failure =>
    have hall := congrArg all ((hmap _ (hother a)).symm.trans (hmap _ (hother b)))
    rw [all_map, all_map, List.map_inj_left] at hall
    have hreads := congrArg Node.reads (hall m hm)
    rw [reads_map, reads_map, List.map_inj_left] at hreads
    have hsame := hreads e he
    rw [hfe] at hsame
    exact absurd hsame hab

end Node.CompilesTo

namespace Module

open Expression (Registry)

/-- The compiled form of an expression of the module, which is of no interest where it cannot be compiled. -/
def compiled (m : Module) (r : Registry) (e : Expr) : Compiled :=
  { id := e.id, evaluator := (r.compile e.token.value).toOption.getD default, site := m.siteOf e }

abbrev Compiles (m : Module) (r : Registry) : Node Expr → Node Compiled → Prop :=
  Node.CompilesTo (m.compileExpr r) (m.compiled r)

variable {m : Module} {r : Registry}

theorem compile_eq_ok {e : Expr} {c : Compiled} (h : m.compileExpr r e = .ok c) :
    r.compile e.token.value = .ok c.evaluator ∧ c = m.compiled r e := by
  unfold compileExpr at h
  split at h
  · next evaluator hcompile =>
    cases h
    exact ⟨hcompile, by rw [compiled, hcompile]; rfl⟩
  · cases h

variable {Fine : Failure → Prop} (hexpr : ∀ e f, m.compileExpr r e = .error f → Fine f)
  (hother : ∀ f : Failure, f.site? = none → Fine f)
include hexpr hother

theorem traverse_yields (n : Node Expr) : Yields Fine (m.Compiles r n) (n.traverse (m.compileExpr r)) := by
  have hcompiled : ∀ e c, m.compileExpr r e = .ok c → c = m.compiled r e := fun _ _ h => (compile_eq_ok h).2
  refine ⟨fun n' h => .of_traverse h hcompiled (a := default) (b := { (default : Compiled) with id := 1 }) ?_,
    (Node.traverse_yields (fun e => ⟨hcompiled e, hexpr e⟩) (hother _ rfl) n).2⟩
  exact fun h => Nat.zero_ne_one (congrArg Compiled.id h)

theorem compileMacros_yields (macros : List (Bytes × Node Expr)) (entries : Assoc Bytes) :
    Yields Fine (fun p => List.Forall₂ (fun q q' => q'.1 = q.1 ∧ m.Compiles r q.2 q'.2) macros p.1)
      (m.compileMacros r macros entries) := by
  induction macros generalizing entries with
  | nil => exact .ok .nil
  | cons q macros ih =>
    unfold compileMacros
    dsimp only
    split
    · exact .error (hother _ rfl)
    · exact .bind (traverse_yields hexpr hother q.2) fun body hbody => .bind (ih _) fun p hp => .ok (.cons ⟨rfl, hbody⟩ hp)

theorem compile_yields (settings : Nat) : Yields Fine (fun p => m.Compiles r m.body p.main ∧
    List.Forall₂ (fun q q' => q'.1 = q.1 ∧ m.Compiles r q.2 q'.2) m.macros p.macros) (m.compile r settings) :=
  .bind (traverse_yields hexpr hother m.body) fun _ hmain =>
    .bind (compileMacros_yields hexpr hother m.macros _) fun _ hmacros => .ok ⟨hmain, hmacros⟩

end Module

theorem exists_module_of_compileTemplate {r : Expression.Registry} {filename source : Bytes} {settings : Nat} {p : Program}
    (h : compileTemplate r filename source settings = .ok p) :
    ∃ tree m, Markup.parse source filename = .ok tree ∧ Builder.build r filename source tree = .ok m ∧
      m.Compiles r m.body p.main ∧
      List.Forall₂ (fun q q' => q'.1 = q.1 ∧ m.Compiles r q.2 q'.2) m.macros p.macros := by
  cases hparse : Markup.parse source filename with
  | error f => simp [compileTemplate, hparse, bind, Except.bind] at h
  | ok tree =>
    cases hbuild : Builder.build r filename source tree with
    | error f => simp [compileTemplate, hparse, hbuild, bind, Except.bind] at h
    | ok m =>
      simp only [compileTemplate, hparse, hbuild, bind, Except.bind] at h
      have hyields : Yields (fun _ => True) _ (m.compile r settings) :=
        m.compile_yields (fun _ _ _ => trivial) (fun _ _ => trivial) settings
      exact ⟨tree, m, rfl, hbuild, hyields.1 p h⟩

end PageTemplate
