import ContextQuery.Entries
import Mathlib.Data.List.Induction
import Mathlib.Data.List.Nodup

namespace ContextQuery.Entries

variable {α β : Type} {key : String} {value : α}

def insertAll (acc entries : List (String × α)) : List (String × α) :=
  entries.foldl (fun acc e => insert e.1 e.2 acc) acc

theorem mem_of_lookup {entries : List (String × α)} (h : entries.lookup key = some value) :
    (key, value) ∈ entries := by
  obtain ⟨before, after, rfl, -⟩ := List.lookup_eq_some_iff.1 h
  simp

theorem insertAll_append (acc es fs : List (String × α)) :
    insertAll acc (es ++ fs) = insertAll (insertAll acc es) fs := List.foldl_append

theorem insert_of_not_mem {acc : List (String × α)} (h : key ∉ acc.map Prod.fst) :
    insert key value acc = acc ++ [(key, value)] := by
  induction acc with
  | nil => rfl
  | cons e rest ih =>
    obtain ⟨k, v⟩ := e
    rw [List.map_cons, List.mem_cons, not_or] at h
    rw [insert, if_neg (Ne.symm h.1), ih h.2, List.cons_append]

/-- A key that is there keeps its place. -/
theorem keys_insert_of_mem (value : α) {acc : List (String × α)} (h : key ∈ acc.map Prod.fst) :
    (insert key value acc).map Prod.fst = acc.map Prod.fst := by
  induction acc with
  | nil => cases h
  | cons e rest ih =>
    obtain ⟨k, v⟩ := e
    by_cases hk : k = key
    · rw [insert, if_pos hk, List.map_cons, List.map_cons, hk]
    · have hrest : key ∈ rest.map Prod.fst := (List.mem_cons.1 h).resolve_left (Ne.symm hk)
      rw [insert, if_neg hk, List.map_cons, ih hrest, List.map_cons]

theorem nodup_keys_insert {acc : List (String × α)} (h : (acc.map Prod.fst).Nodup) (key : String)
    (value : α) : ((insert key value acc).map Prod.fst).Nodup := by
  by_cases hmem : key ∈ acc.map Prod.fst
  · rwa [keys_insert_of_mem value hmem]
  · rw [insert_of_not_mem hmem, List.map_append, List.map_singleton]
    exact h.append (List.nodup_singleton key) (by simpa using hmem)

theorem nodup_keys_insertAll {acc : List (String × α)} (h : (acc.map Prod.fst).Nodup)
    (es : List (String × α)) : ((insertAll acc es).map Prod.fst).Nodup := by
  induction es generalizing acc with
  | nil => exact h
  | cons e es ih => exact ih (nodup_keys_insert h e.1 e.2)

theorem length_insert_of_mem (value : α) {acc : List (String × α)} (h : key ∈ acc.map Prod.fst) :
    (insert key value acc).length = acc.length := by
  simpa using congrArg List.length (keys_insert_of_mem value h)

theorem length_insert_le (key : String) (value : α) (acc : List (String × α)) :
    (insert key value acc).length ≤ acc.length + 1 := by
  by_cases h : key ∈ acc.map Prod.fst
  · rw [length_insert_of_mem value h]
    exact Nat.le_succ _
  · rw [insert_of_not_mem h]
    simp

theorem mem_insert {acc : List (String × α)} {e : String × α} (h : e ∈ insert key value acc) :
    e = (key, value) ∨ e ∈ acc := by
  induction acc with
  | nil => exact .inl (List.mem_singleton.1 h)
  | cons e' rest ih =>
    obtain ⟨k, v⟩ := e'
    by_cases hk : k = key
    · rw [insert, if_pos hk] at h
      exact (List.mem_cons.1 h).imp id (List.mem_cons_of_mem _)
    · rw [insert, if_neg hk] at h
      rcases List.mem_cons.1 h with rfl | h
      · exact .inr List.mem_cons_self
      · exact (ih h).imp id (List.mem_cons_of_mem _)

theorem mem_keys_insert {acc : List (String × α)} {k : String} :
    k ∈ (insert key value acc).map Prod.fst ↔ k = key ∨ k ∈ acc.map Prod.fst := by
  induction acc with
  | nil => simp [insert]
  | cons e rest ih =>
    obtain ⟨k', v⟩ := e
    by_cases hk : k' = key
    · rw [insert, if_pos hk]
      simp [hk]
    · rw [insert, if_neg hk, List.map_cons, List.mem_cons, ih, List.map_cons, List.mem_cons]
      tauto

theorem mem_keys_insertAll {acc es : List (String × α)} {k : String} :
    k ∈ (insertAll acc es).map Prod.fst ↔ k ∈ acc.map Prod.fst ∨ k ∈ es.map Prod.fst := by
  induction es generalizing acc with
  | nil => simp [insertAll]
  | cons e es ih =>
    change k ∈ (insertAll (insert e.1 e.2 acc) es).map Prod.fst ↔ _
    rw [ih, mem_keys_insert, List.map_cons, List.mem_cons]
    tauto

theorem key_mem_of_mem_insertAll {es : List (String × α)} {e : String × α}
    (h : e ∈ insertAll [] es) : e.1 ∈ es.map Prod.fst := by
  have hkey : e.1 ∈ (insertAll [] es).map Prod.fst := List.mem_map_of_mem h
  rw [mem_keys_insertAll] at hkey
  exact hkey.resolve_left List.not_mem_nil

theorem length_insertAll_le (acc es : List (String × α)) :
    (insertAll acc es).length ≤ acc.length + es.length := by
  induction es generalizing acc with
  | nil => exact Nat.le_refl _
  | cons e es ih =>
    have hinsert := length_insert_le e.1 e.2 acc
    have hrest := ih (insert e.1 e.2 acc)
    change (insertAll (insert e.1 e.2 acc) es).length ≤ _
    rw [List.length_cons]
    omega

theorem insertAll_eq_append {acc es : List (String × α)} (h : ((acc ++ es).map Prod.fst).Nodup) :
    insertAll acc es = acc ++ es := by
  induction es generalizing acc with
  | nil => exact (List.append_nil acc).symm
  | cons e es ih =>
    have hshape : acc ++ e :: es = acc ++ [e] ++ es := by simp
    have hkey : e.1 ∉ acc.map Prod.fst := by
      rw [List.map_append, List.nodup_append] at h
      exact fun hmem => h.2.2 _ hmem _ List.mem_cons_self rfl
    rw [hshape] at h ⊢
    change insertAll (insert e.1 e.2 acc) es = _
    rw [insert_of_not_mem hkey, ih h]

/-- Nothing is lost only if all keys differ. -/
theorem nodup_of_length_le {acc es : List (String × α)} (hacc : (acc.map Prod.fst).Nodup)
    (h : acc.length + es.length ≤ (insertAll acc es).length) :
    ((acc ++ es).map Prod.fst).Nodup := by
  induction es generalizing acc with
  | nil => rwa [List.append_nil]
  | cons e es ih =>
    have hlength := length_insertAll_le (insert e.1 e.2 acc) es
    change _ ≤ (insertAll (insert e.1 e.2 acc) es).length at h
    rw [List.length_cons] at h
    have hkey : e.1 ∉ acc.map Prod.fst := by
      intro hmem
      -- An entry that replaces another is one entry less than was counted.
      have := length_insert_of_mem e.2 hmem
      omega
    have hshape : acc ++ e :: es = acc ++ [e] ++ es := by simp
    have hinsert : insert e.1 e.2 acc = acc ++ [e] := insert_of_not_mem hkey
    rw [hinsert] at h
    rw [hshape]
    apply ih
    · simp only [List.map_append, List.nodup_append]
      refine ⟨hacc, List.nodup_singleton _, ?_⟩
      intro k hk k' hk' he
      rw [List.mem_singleton.1 hk'] at he
      exact hkey (he ▸ hk)
    · rw [List.length_append, List.length_singleton]
      omega

/-- Each key is there once, in the place where it first came. -/
theorem keys_insertAll (es : List (String × α)) :
    (insertAll [] es).map Prod.fst = (es.map Prod.fst).eraseDups := by
  induction es using List.reverseRecOn with
  | nil => rfl
  | append_singleton es e ih =>
    have hkey : e.1 ∈ (insertAll [] es).map Prod.fst ↔ e.1 ∈ es.map Prod.fst := by
      rw [ih, List.mem_eraseDups]
    rw [List.map_append, List.map_singleton, List.eraseDups_append, ← ih, insertAll_append,
      List.cons_removeAll, List.nil_removeAll]
    change (insert e.1 e.2 (insertAll [] es)).map Prod.fst = _
    by_cases hmem : e.1 ∈ es.map Prod.fst
    · have hcontains : (es.map Prod.fst).contains e.1 = true := List.contains_iff_mem.2 hmem
      rw [keys_insert_of_mem e.2 (hkey.2 hmem), hcontains]
      exact (List.append_nil _).symm
    · have hcontains : (es.map Prod.fst).contains e.1 = false :=
        Bool.eq_false_iff.2 (mt List.contains_iff_mem.1 hmem)
      rw [insert_of_not_mem (mt hkey.1 hmem), if_pos hcontains, List.map_append]
      rfl

theorem nodup_of_length_le_insertAll {es : List (String × α)}
    (h : es.length ≤ (insertAll [] es).length) : (es.map Prod.fst).Nodup := by
  have hnodup : (([] ++ es).map Prod.fst).Nodup := by
    refine nodup_of_length_le List.nodup_nil ?_
    rwa [List.length_nil, Nat.zero_add]
  exact hnodup

theorem keys_insertAll_eq_iff {es : List (String × α)} :
    (insertAll [] es).map Prod.fst = es.map Prod.fst ↔ (es.map Prod.fst).Nodup := by
  constructor
  · intro he
    have hlength := congrArg List.length he
    rw [List.length_map, List.length_map] at hlength
    exact nodup_of_length_le_insertAll (Nat.le_of_eq hlength.symm)
  · intro hnodup
    rw [insertAll_eq_append hnodup, List.nil_append]

section Filter
variable {p : String → Bool}

theorem filter_insert (acc : List (String × α)) :
    (insert key value acc).filter (fun e => p e.1) =
      if p key then insert key value (acc.filter fun e => p e.1)
      else acc.filter fun e => p e.1 := by
  induction acc with
  | nil =>
    simp only [insert, List.filter_cons, List.filter_nil]
  | cons e rest ih =>
    obtain ⟨k, v⟩ := e
    by_cases hk : k = key
    · subst hk
      rw [insert, if_pos rfl, List.filter_cons, List.filter_cons]
      cases hp : p k <;> simp [insert]
    · rw [insert, if_neg hk, List.filter_cons, List.filter_cons, ih]
      cases hp : p k <;> cases hp' : p key <;> simp [insert, hk]

/-- Entries that are kept by their keys can be taken out before they are inserted. -/
theorem filter_insertAll (acc es : List (String × α)) :
    (insertAll acc es).filter (fun e => p e.1) =
      insertAll (acc.filter fun e => p e.1) (es.filter fun e => p e.1) := by
  induction es generalizing acc with
  | nil => rfl
  | cons e es ih =>
    change (insertAll (insert e.1 e.2 acc) es).filter _ = _
    rw [ih, filter_insert, List.filter_cons]
    cases hp : p e.1 <;> rfl

end Filter

theorem lookup_insertAll_of_not_mem {acc es : List (String × α)} (h : key ∉ es.map Prod.fst) :
    (insertAll acc es).lookup key = acc.lookup key := by
  induction es generalizing acc with
  | nil => rfl
  | cons e es ih =>
    rw [List.map_cons, List.mem_cons, not_or] at h
    change (insertAll (insert e.1 e.2 acc) es).lookup key = _
    rw [ih h.2, lookup_insert_of_ne h.1]

theorem hasKey_iff {entries : List (String × α)} :
    hasKey entries key = true ↔ key ∈ entries.map Prod.fst := by
  simp [hasKey]

theorem hasKey_eq_false_iff {entries : List (String × α)} :
    hasKey entries key = false ↔ entries.lookup key = none := by
  rw [hasKey, Option.isSome_eq_false_iff, Option.isNone_iff_eq_none]

theorem insert_map (f : α → β) (acc : List (String × α)) :
    (insert key value acc).map (fun e => (e.1, f e.2)) =
      insert key (f value) (acc.map fun e => (e.1, f e.2)) := by
  induction acc with
  | nil => rfl
  | cons e rest ih =>
    obtain ⟨k, v⟩ := e
    by_cases hk : k = key
    · simp [insert, hk]
    · simp [insert, hk, ih]

theorem insertAll_map (f : α → β) (acc es : List (String × α)) :
    (insertAll acc es).map (fun e => (e.1, f e.2)) =
      insertAll (acc.map fun e => (e.1, f e.2)) (es.map fun e => (e.1, f e.2)) := by
  induction es generalizing acc with
  | nil => rfl
  | cons e es ih =>
    change (insertAll (insert e.1 e.2 acc) es).map _ = _
    rw [ih, insert_map]
    rfl

end ContextQuery.Entries
