import Mathlib.Data.List.Infix
import PageTemplate.Proofs.Markup.Tree

/-!
Tokens stand where they say. A token is placed if its bytes are those of the source from its position on. The tokens
that a source is cut into are placed, and so is every token cut from a placed one: the values of attributes, and the
texts and elements of the tree.
-/

namespace PageTemplate.Markup

variable {tok : Token}

/-- The token holds bytes of the source, from its position on. -/
structure Token.Placed (source : Bytes) (t : Token) : Prop where
  source_eq : t.source = source
  isPrefix : t.value <+: source.drop t.pos

namespace Token.Placed

variable {source : Bytes} {t : Token}

theorem drop (h : t.Placed source) (i : Nat) : (t.drop i).Placed source where
  source_eq := h.source_eq
  isPrefix := by
    have hdrop := h.isPrefix.drop i
    rwa [List.drop_drop] at hdrop

theorem slice (h : t.Placed source) (i j : Nat) : (t.slice i j).Placed source where
  source_eq := h.source_eq
  isPrefix := (List.take_prefix _ _).trans (h.drop i).isPrefix

theorem trim (h : t.Placed source) : t.trim.Placed source := h.slice _ _

end Token.Placed

theorem placed_of_mem_tokensFrom {source filename s : Bytes} {pos : Nat} (hs : source.drop pos = s) {t : Token}
    (h : t ∈ tokensFrom source filename pos s) : t.Placed source := by
  fun_induction tokensFrom source filename pos s with
  | case1 pos => simp at h
  | case2 pos c s l value ih =>
    have hvalue : value ++ s.drop l.2 = c :: s := by
      simp only [value, List.cons_append, List.take_append_drop]
    rcases List.mem_cons.1 h with rfl | h
    · exact ⟨rfl, s.drop l.2, hvalue.trans hs.symm⟩
    · refine ih ?_ h
      rw [← List.drop_drop, hs, ← hvalue, List.drop_left]

theorem placed_of_mem_tokenize {source filename : Bytes} {t : Token} (h : t ∈ tokenize source filename) :
    t.Placed source :=
  placed_of_mem_tokensFrom List.drop_zero h

theorem placed_of_readAttributes? {source : Bytes} (htok : tok.Placed source) {i : Nat} {s ending : Bytes}
    {attributes : List RawAttribute} (h : readAttributes? tok i s = some (attributes, ending)) :
    ∀ a ∈ attributes, a.value.Placed source := by
  fun_induction readAttributes? tok i s generalizing attributes ending with
  | case1 =>
    cases h
    simp
  | case2 => cases h
  | case3 => cases h
  | case4 => cases h
  | case5 =>
    rename_i ih
    obtain ⟨⟨more, ending'⟩, hmore, he⟩ := Option.map_eq_some_iff.1 h
    cases he
    exact List.forall_mem_cons.2 ⟨htok.slice _ _, ih hmore⟩

theorem Tag.placed_of_ofToken? {source : Bytes} (htok : tok.Placed source) {tag : Tag}
    (h : Tag.ofToken? tok = some tag) : ∀ a ∈ tag.attributes, a.value.Placed source := by
  obtain ⟨opening, _, h⟩ := Option.bind_eq_some_iff.1 h
  dsimp only at h
  split at h
  · cases h
  · obtain ⟨⟨attributes, ending⟩, hread, rfl⟩ := Option.map_eq_some_iff.1 h
    exact placed_of_readAttributes? htok hread

section Trees

variable {source filename : Bytes} {tree : List Node} (hparse : parse source filename = .ok tree)
include hparse

theorem placed_of_mem_textsOf {t : Token} (ht : t ∈ textsOf tree) : t.Placed source :=
  placed_of_mem_tokenize (mem_of_mem_textsOf hparse ht)

theorem placed_of_mem_elementHeads {head : ElementHead} (hhead : head ∈ elementHeads tree) :
    ∀ a ∈ head.attributes, a.raw.value.Placed source := by
  obtain ⟨tok, htok, _, tag, bindings, htag, rfl⟩ := ofTag_of_mem_elementHeads hparse hhead
  intro a ha
  obtain ⟨raw, hraw, rfl⟩ := List.mem_map.1 ha
  exact Tag.placed_of_ofToken? (placed_of_mem_tokenize htok) htag raw hraw

end Trees

end PageTemplate.Markup
