import ContextQuery.Proofs.Entries
import ContextQuery.Proofs.Json.Names

namespace ContextQuery.Json

/-- Are the values the same but for the order of members, of the objects in them as well? -/
inductive Permuted : Json → Json → Prop
  | null : Permuted .null .null
  | bool (b : Bool) : Permuted (.bool b) (.bool b)
  | number (n : Number) : Permuted (.number n) (.number n)
  | string (s : String) : Permuted (.string s) (.string s)
  | array {items items' : List Json} (length : items.length = items'.length)
    (each : ∀ (i : Nat) v v', items[i]? = some v → items'[i]? = some v' → Permuted v v') :
    Permuted (.array items) (.array items')
  | object {members members' : List (String × Json)}
    (names : (members.map Prod.fst).Perm (members'.map Prod.fst))
    (each : ∀ name v v', (name, v) ∈ members → (name, v') ∈ members' → Permuted v v') :
    Permuted (.object members) (.object members')

variable {members mid members' : List (String × Json)}

/-- Members that are changed in their place may be put in any order, if their names differ. -/
theorem permuted_of_perm (perm : mid.Perm members') (names : (mid.map Prod.fst).Nodup)
    (h : List.Forall₂ (fun m m' => m.1 = m'.1 ∧ Permuted m.2 m'.2) members mid) :
    Permuted (.object members) (.object members') := by
  have hnames : members.map Prod.fst = mid.map Prod.fst := by
    rw [← List.forall₂_eq_eq_eq, List.forall₂_map_left_iff, List.forall₂_map_right_iff]
    exact h.imp fun _ _ hm => hm.1
  refine .object (hnames ▸ perm.map Prod.fst) fun name v v' hv hv' => ?_
  obtain ⟨i, hi, hget⟩ := List.getElem_of_mem hv
  obtain ⟨hname, hvalue⟩ := h.get hi (h.length_eq ▸ hi)
  rw [List.get_eq_getElem, List.get_eq_getElem, hget] at hname hvalue
  -- The member of that name in between is the one that comes out.
  have hmid := List.inj_on_of_nodup_map names (List.getElem_mem _) (perm.mem_iff.2 hv') hname.symm
  rwa [hmid] at hvalue

theorem permuted_self {j : Json} (h : j.HasDistinctNames) : j.Permuted j := by
  induction h with
  | null => exact .null
  | bool b => exact .bool b
  | number n => exact .number n
  | string s => exact .string s
  | @array items _ ih =>
    refine .array rfl fun i v v' hv hv' => ?_
    obtain rfl : v = v' := Option.some.inj (hv.symm.trans hv')
    exact ih v (List.mem_of_getElem? hv)
  | object names _ ih =>
    exact permuted_of_perm (.refl _) names (List.forall₂_same.2 fun m hm => ⟨rfl, ih m hm⟩)

section Lookup
variable (h : (Json.object members).Permuted (.object members')) (name : String)
include h

theorem Permuted.hasKey_eq : Entries.hasKey members name = Entries.hasKey members' name := by
  cases h with
  | object names each =>
    rw [Bool.eq_iff_iff, Entries.hasKey_iff, Entries.hasKey_iff, names.mem_iff]

theorem Permuted.lookup_eq_none_iff :
    members.lookup name = none ↔ members'.lookup name = none := by
  rw [← Entries.hasKey_eq_false_iff, ← Entries.hasKey_eq_false_iff, h.hasKey_eq]

theorem Permuted.lookup : Option.Rel Permuted (members.lookup name) (members'.lookup name) := by
  have hnone := h.lookup_eq_none_iff name
  cases h with
  | object names each =>
    cases hv : members.lookup name with
    | none =>
      rw [hnone.1 hv]
      exact .none
    | some v =>
      cases hv' : members'.lookup name with
      | none => cases hv.symm.trans (hnone.2 hv')
      | some v' =>
        exact .some (each name v v' (Entries.mem_of_lookup hv) (Entries.mem_of_lookup hv'))

end Lookup

end ContextQuery.Json
