import PageTemplate.Bytes

/-!
Association lists as finite maps: what is found under a key after an entry has been set or left out, and
after a whole map has been copied into another.
-/

namespace PageTemplate.Assoc

variable {α : Type}
variable {m entries : Assoc α} {k : Bytes} {e : Bytes × α}

@[simp] theorem get?_nil (k : Bytes) : get? ([] : Assoc α) k = none := rfl

@[simp] theorem get?_cons (e : Bytes × α) (m : Assoc α) (k : Bytes) :
    get? (e :: m) k = if k = e.1 then some e.2 else m.get? k := by
  obtain ⟨k', v⟩ := e
  by_cases h : k = k'
  · rw [get?, List.lookup_cons]
    simp [h]
  · have hbeq : (k == k') = false := by simpa using h
    rw [get?, List.lookup_cons]
    simp [h, hbeq, get?]

@[simp] theorem get?_append (m m' : Assoc α) (k : Bytes) : get? (m ++ m') k = (get? m k).or (get? m' k) := by
  induction m with
  | nil => rw [List.nil_append, get?_nil, Option.none_or]
  | cons e m ih =>
    rw [List.cons_append, get?_cons, get?_cons, ih]
    split
    · rfl
    · rfl

theorem mem_of_get? {v : α} (h : m.get? k = some v) : (k, v) ∈ m := by
  induction m with
  | nil => cases h
  | cons e m ih =>
    rw [get?_cons] at h
    split at h
    · next hk =>
      cases h
      exact hk ▸ List.mem_cons_self
    · exact List.mem_cons_of_mem e (ih h)

@[simp] theorem get?_insert (m : Assoc α) (k : Bytes) (v : α) (j : Bytes) :
    (m.insert k v).get? j = if j = k then some v else m.get? j := by
  induction m with
  | nil => simp only [insert, get?_cons]
  | cons e m ih =>
    obtain ⟨k', v'⟩ := e
    rw [insert]
    split
    · next h =>
      subst h
      simp only [get?_cons]
      split <;> rfl
    · simp only [get?_cons, ih]
      grind

@[simp] theorem get?_erase (m : Assoc α) (k j : Bytes) :
    (m.erase k).get? j = if j = k then none else m.get? j := by
  induction m with
  | nil => simp [erase]
  | cons e m ih =>
    by_cases h : e.1 = k
    · have herase : erase (e :: m) k = erase m k := by simp [erase, h]
      rw [herase, ih, get?_cons]
      grind
    · have herase : erase (e :: m) k = e :: erase m k := by simp [erase, h]
      rw [herase, get?_cons, get?_cons, ih]
      grind

@[simp] theorem get?_set? (m : Assoc α) (k : Bytes) (v : Option α) (j : Bytes) :
    (m.set? k v).get? j = if j = k then v else m.get? j := by
  cases v with
  | some v => exact m.get?_insert k v j
  | none => exact m.get?_erase k j

@[simp] theorem set?_get?_insert (m : Assoc α) (k : Bytes) (v : α) :
    (m.insert k v).set? k (m.get? k) = m := by
  induction m with
  | nil => simp [insert, set?, erase]
  | cons e m ih =>
    obtain ⟨k', v'⟩ := e
    rw [insert]
    split
    · next h =>
      subst h
      simp [set?, insert]
    · next h =>
      rw [get?_cons, if_neg (Ne.symm h)]
      cases hget : get? m k with
      | some u =>
        rw [hget] at ih
        simp only [set?] at ih ⊢
        rw [insert, if_neg h, ih]
      | none =>
        -- The entry was added at the end, so leaving out its key removes nothing else.
        rw [hget] at ih
        simp only [set?, erase] at ih ⊢
        rw [List.filter_cons_of_pos (by simpa using h), ih]

theorem mem_or_eq_of_mem_insert {v : α} (h : e ∈ m.insert k v) : e ∈ m ∨ e = (k, v) := by
  induction m with
  | nil => exact .inr (List.mem_singleton.1 h)
  | cons e' m ih =>
    rw [insert] at h
    split at h
    · rcases List.mem_cons.1 h with rfl | h
      · exact .inr rfl
      · exact .inl (List.mem_cons_of_mem _ h)
    · rcases List.mem_cons.1 h with rfl | h
      · exact .inl List.mem_cons_self
      · exact (ih h).imp_left (List.mem_cons_of_mem _)

theorem mem_or_mem_of_mem_insertAll (h : e ∈ m.insertAll entries) : e ∈ m ∨ e ∈ entries := by
  induction entries generalizing m with
  | nil => exact .inl h
  | cons e' entries ih =>
    rcases ih (m := m.insert e'.1 e'.2) h with h | h
    · rcases mem_or_eq_of_mem_insert h with h | rfl
      · exact .inl h
      · exact .inr List.mem_cons_self
    · exact .inr (List.mem_cons_of_mem _ h)

theorem keys_insert_of_mem (h : k ∈ m.keys) (v : α) :
    (m.insert k v).keys = m.keys := by
  induction m with
  | nil => simp [keys] at h
  | cons e m ih =>
    obtain ⟨k', v'⟩ := e
    rw [insert]
    split
    · next hk => simp [keys, hk]
    · next hk =>
      have hmem : k ∈ keys m := by simpa [keys, Ne.symm hk] using h
      simpa [keys] using ih hmem

theorem keys_insert_of_not_mem (h : k ∉ m.keys) (v : α) :
    (m.insert k v).keys = m.keys ++ [k] := by
  induction m with
  | nil => rfl
  | cons e m ih =>
    obtain ⟨k', v'⟩ := e
    simp only [keys, List.map_cons, List.mem_cons, not_or] at h
    rw [insert, if_neg (Ne.symm h.1)]
    simpa [keys] using ih h.2

theorem nodup_keys_insert (h : m.keys.Nodup) (k : Bytes) (v : α) :
    (m.insert k v).keys.Nodup := by
  by_cases hk : k ∈ m.keys
  · rwa [keys_insert_of_mem hk]
  · rw [keys_insert_of_not_mem hk, List.nodup_append]
    refine ⟨h, by simp, ?_⟩
    intro a ha b hb hab
    rw [List.mem_singleton] at hb
    exact hk (hb ▸ hab ▸ ha)

theorem nodup_keys_erase (h : m.keys.Nodup) (k : Bytes) : (m.erase k).keys.Nodup :=
  h.sublist (List.Sublist.map _ List.filter_sublist)

theorem get?_eq_none_iff : m.get? k = none ↔ k ∉ m.keys := by
  induction m with
  | nil => simp [keys]
  | cons e m ih =>
    rw [get?_cons, keys, List.map_cons, List.mem_cons, not_or]
    split
    · next hk => simp [hk]
    · next hk => exact ih.trans (by simp only [hk, not_false_eq_true, true_and, keys])

theorem get?_insertAll (h : entries.keys.Nodup) (m : Assoc α) (k : Bytes) :
    (m.insertAll entries).get? k = (entries.get? k).or (m.get? k) := by
  induction entries generalizing m with
  | nil => rfl
  | cons e entries ih =>
    simp only [keys, List.map_cons, List.nodup_cons] at h
    change ((insert m e.1 e.2).insertAll entries).get? k = _
    rw [ih h.2, get?_insert, get?_cons]
    split
    · next hk =>
      subst hk
      rw [get?_eq_none_iff.2 h.1]
      rfl
    · rfl

theorem get?_insertAll_reverse (m entries : Assoc α) (k : Bytes) :
    (m.insertAll entries).get? k = (List.lookup k entries.reverse).or (m.get? k) := by
  induction entries generalizing m with
  | nil => rfl
  | cons e entries ih =>
    have hcons : m.insertAll (e :: entries) = (m.insert e.1 e.2).insertAll entries := rfl
    have hlast : List.lookup k [e] = if k = e.1 then some e.2 else none := get?_cons e [] k
    rw [hcons, ih, get?_insert, List.reverse_cons, List.lookup_append, hlast, Option.or_assoc]
    split <;> rfl

theorem get?_insertAll_of_ne (h : ∀ e ∈ entries, e.1 ≠ k) (m : Assoc α) : (m.insertAll entries).get? k = m.get? k := by
  have hnone : List.lookup k entries.reverse = none :=
    List.lookup_eq_none_iff.2 fun e he => by simpa using Ne.symm (h e (List.mem_reverse.1 he))
  rw [get?_insertAll_reverse, hnone, Option.none_or]

@[simp] theorem get?_ofEntries (entries : List (Bytes × α)) (k : Bytes) :
    (ofEntries entries).get? k = get? entries.reverse k := by
  rw [ofEntries, get?_insertAll_reverse]
  exact Option.or_none

@[simp] theorem mem_keys_ofEntries {entries : List (Bytes × α)} :
    k ∈ (ofEntries entries).keys ↔ k ∈ entries.map (·.1) := by
  rw [← Decidable.not_iff_not, ← get?_eq_none_iff, get?_ofEntries, get?_eq_none_iff, keys, List.map_reverse,
    List.mem_reverse]

end PageTemplate.Assoc
