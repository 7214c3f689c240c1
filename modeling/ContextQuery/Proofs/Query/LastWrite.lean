import ContextQuery.Proofs.Query.History
import Mathlib.Data.Finset.Card

namespace ContextQuery

def IsLast {α β : Type} (f : α → β) (xs : List α) (x : α) : Prop :=
  ∃ before after, xs = before ++ x :: after ∧ f x ∉ after.map f

section IsLast
variable {α β : Type} {f : α → β} {xs : List α} {x : α}

/-- Where no value comes twice, each is the last. -/
theorem isLast_iff_mem (h : (xs.map f).Nodup) : IsLast f xs x ↔ x ∈ xs := by
  constructor
  · rintro ⟨before, after, rfl, -⟩
    exact List.mem_append_right before List.mem_cons_self
  · intro hx
    obtain ⟨before, after, rfl⟩ := List.append_of_mem hx
    rw [List.map_append, List.map_cons] at h
    exact ⟨before, after, rfl, (List.nodup_cons.1 h.of_append_right).1⟩

end IsLast

namespace Registry

section Views
variable {r : Registry} {ds : List (String × String)} {key identifier : String}

theorem resolve_registerAll_eq_some_iff : (r.registerAll ds).resolve key = some identifier ↔
    IsLast Prod.fst ds (key, identifier) ∨
      key ∉ ds.map Prod.fst ∧ r.resolve key = some identifier := by
  constructor
  · intro h
    by_cases hmem : key ∈ ds.map Prod.fst
    · obtain ⟨before, ⟨k, i⟩, after, rfl, rfl, hafter⟩ := exists_last_of_mem_map hmem
      obtain rfl : i = identifier :=
        Option.some.inj ((resolve_registerAll_last hafter).symm.trans h)
      exact .inl ⟨before, after, rfl, hafter⟩
    · exact .inr ⟨hmem, by rwa [resolve_registerAll_of_not_mem hmem] at h⟩
  · rintro (⟨before, after, rfl, hafter⟩ | ⟨hmem, h⟩)
    · exact resolve_registerAll_last hafter
    · rwa [resolve_registerAll_of_not_mem hmem]

theorem prefixFor_registerAll_eq_some_iff : (r.registerAll ds).prefixFor identifier = some key ↔
    IsLast Prod.snd ds (key, identifier) ∨
      identifier ∉ ds.map Prod.snd ∧ r.prefixFor identifier = some key := by
  constructor
  · intro h
    by_cases hmem : identifier ∈ ds.map Prod.snd
    · obtain ⟨before, ⟨k, i⟩, after, rfl, rfl, hafter⟩ := exists_last_of_mem_map hmem
      obtain rfl : k = key := Option.some.inj ((prefixFor_registerAll_last hafter).symm.trans h)
      exact .inl ⟨before, after, rfl, hafter⟩
    · exact .inr ⟨hmem, by rwa [prefixFor_registerAll_of_not_mem hmem] at h⟩
  · rintro (⟨before, after, rfl, hafter⟩ | ⟨hmem, h⟩)
    · exact prefixFor_registerAll_last hafter
    · rwa [prefixFor_registerAll_of_not_mem hmem]

theorem identifiers_registerAll (r : Registry) (ds : List (String × String)) :
    (r.registerAll ds).identifiers = Entries.insertAll r.identifiers ds := by
  induction ds generalizing r with
  | nil => rfl
  | cons d ds ih => exact ih (r.register d.1 d.2)

/-- Each prefix is counted once. -/
theorem size_registerAll (h : r.identifiers = []) (ds : List (String × String)) :
    (r.registerAll ds).size = (ds.map Prod.fst).toFinset.card := by
  have hkeys : (r.registerAll ds).identifiers.map Prod.fst = (ds.map Prod.fst).eraseDups := by
    rw [identifiers_registerAll, h, Entries.keys_insertAll]
  have hnil : (([] : List (String × String)).map Prod.fst).Nodup := List.nodup_nil
  have hnodup : ((ds.map Prod.fst).eraseDups).Nodup := by
    rw [← Entries.keys_insertAll]
    exact Entries.nodup_keys_insertAll hnil ds
  have hsame : (ds.map Prod.fst).eraseDups.toFinset = (ds.map Prod.fst).toFinset := by
    ext key
    rw [List.mem_toFinset, List.mem_toFinset, List.mem_eraseDups]
  rw [size, ← List.length_map Prod.fst, hkeys, ← List.toFinset_card_of_nodup hnodup, hsame]

end Views

/-- Is the registry what the registrations `ds` make of one that knows the context sets `sets` and
the identifiers `older`, which lead back to a prefix and nothing more? -/
structure IsView (r : Registry) (sets older ds : List (String × String)) : Prop where
  resolve : ∀ key identifier, r.resolve key = some identifier ↔
    IsLast Prod.fst ds (key, identifier) ∨ key ∉ ds.map Prod.fst ∧ (key, identifier) ∈ sets
  prefixFor : ∀ identifier key, r.prefixFor identifier = some key ↔
    IsLast Prod.snd ds (key, identifier) ∨
      identifier ∉ ds.map Prod.snd ∧ (key, identifier) ∈ sets ++ older
  size : r.size = ((sets ++ ds).map Prod.fst).toFinset.card
  known : ∀ key ∈ (sets ++ ds).map Prod.fst, ∃ identifier, r.resolve key = some identifier ∧
    (r.prefixFor identifier).isSome = true

/-- What a registry knows when it is created is what it answers where nothing is registered. -/
theorem isView_registerAll {r : Registry} {sets older : List (String × String)}
    (hresolve : ∀ key identifier, r.resolve key = some identifier ↔ (key, identifier) ∈ sets)
    (hprefixFor : ∀ identifier key,
      r.prefixFor identifier = some key ↔ (key, identifier) ∈ sets ++ older)
    (hsize : ∀ ds, (r.registerAll ds).size = ((sets ++ ds).map Prod.fst).toFinset.card)
    (ds : List (String × String)) : IsView (r.registerAll ds) sets older ds where
  resolve key identifier := by rw [resolve_registerAll_eq_some_iff, hresolve]
  prefixFor identifier key := by rw [prefixFor_registerAll_eq_some_iff, hprefixFor]
  size := hsize ds
  known key hkey := by
    have hresolved : ((r.registerAll ds).resolve key).isSome = true := by
      by_cases hmem : key ∈ ds.map Prod.fst
      · obtain ⟨before, ⟨k, i⟩, after, rfl, rfl, hafter⟩ := exists_last_of_mem_map hmem
        rw [resolve_registerAll_last hafter]
        rfl
      · rw [List.map_append, List.mem_append, or_iff_left hmem] at hkey
        obtain ⟨⟨k, i⟩, hset, rfl⟩ := List.mem_map.1 hkey
        exact isSome_resolve_registerAll (Option.isSome_of_eq_some ((hresolve k i).2 hset))
    obtain ⟨identifier, hid⟩ := Option.isSome_iff_exists.1 hresolved
    refine ⟨identifier, hid, isSome_prefixFor_registerAll ?_⟩
    -- What the prefix stands for was known with it or registered under it.
    rcases resolve_or_mem_of_registerAll hid with hknown | hmem
    · have hset : (key, identifier) ∈ sets ++ older :=
        List.mem_append_left older ((hresolve key identifier).1 hknown)
      exact .inl (Option.isSome_of_eq_some ((hprefixFor identifier key).2 hset))
    · exact .inr (List.mem_map_of_mem hmem)

def olderRegistry : Registry := ⟨[], olderIdentifiers.map fun p => (reverseKey p.2, p.1)⟩

theorem prefixFor_olderRegistry (identifier : String) :
    olderRegistry.prefixFor identifier = (empty.registerAll olderIdentifiers).prefixFor identifier :=
  congrArg (List.lookup (reverseKey identifier)) (by decide +kernel)

theorem resolve_seeded_iff (key identifier : String) :
    seeded.resolve key = some identifier ↔ (key, identifier) ∈ contextSets := by
  have hkeys : (contextSets.map Prod.fst).Nodup := by decide
  have hnone : olderRegistry.resolve key ≠ some identifier := nofun
  change (olderRegistry.registerAll contextSets).resolve key = _ ↔ _
  rw [resolve_registerAll_eq_some_iff, isLast_iff_mem hkeys]
  exact or_iff_left fun h => hnone h.2

theorem prefixFor_seeded_iff (identifier key : String) :
    seeded.prefixFor identifier = some key ↔
      (key, identifier) ∈ contextSets ++ olderIdentifiers := by
  have hsets : (contextSets.map Prod.snd).Nodup := by decide
  have holder : (olderIdentifiers.map Prod.snd).Nodup := by decide
  have hother : ∀ d ∈ olderIdentifiers, d.2 ∉ contextSets.map Prod.snd := by decide
  have hnone : empty.prefixFor identifier ≠ some key := nofun
  change (olderRegistry.registerAll contextSets).prefixFor identifier = _ ↔ _
  rw [prefixFor_registerAll_eq_some_iff, isLast_iff_mem hsets, prefixFor_olderRegistry,
    prefixFor_registerAll_eq_some_iff, isLast_iff_mem holder, List.mem_append]
  refine or_congr_right ⟨fun h => h.2.resolve_right fun h => hnone h.2, fun h => ⟨?_, .inl h⟩⟩
  exact hother (key, identifier) h

/-- Whatever is registered in the seeded or in the empty registry, both directions show the last
registration of what is asked for, and no two identifiers share a key of the reverse table. -/
theorem lastWrite_views (ds : List (String × String)) :
    IsView (seeded.registerAll ds) contextSets olderIdentifiers ds ∧
      IsView (empty.registerAll ds) [] [] ds ∧ Function.Injective reverseKey := by
  refine ⟨isView_registerAll resolve_seeded_iff prefixFor_seeded_iff (fun ds => ?_) ds,
    isView_registerAll ?_ ?_ (size_registerAll rfl) ds, reverseKey_injective⟩
  · rw [seeded, registerAll_append]
    exact size_registerAll rfl _
  · exact fun key identifier => iff_of_false nofun nofun
  · exact fun identifier key => iff_of_false nofun nofun

/-- A prefix that moves on leaves its identifier to the one that came after it. -/
example : let r := seeded.registerAll [("t", "urn:x"), ("dc", "urn:x"), ("t", "urn:y")]
    r.resolve "t" = some "urn:y" ∧ r.prefixFor "urn:x" = some "dc" ∧ r.size = 18 := by
  decide +kernel

end Registry

end ContextQuery
