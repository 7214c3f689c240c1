import ContextQuery.Json.Value

namespace ContextQuery.Json

/-- The parts of a record, an object with these names or an array of all parts in order; `none`
stands for a member that is absent. No part may come twice. -/
def parts? (names : List String) : Json → Option (List (Option Json))
  | .object members =>
    if names.all fun name => members.countP (·.1 == name) ≤ 1 then
      some (names.map fun name => members.lookup name)
    else none
  | .array items => if items.length = names.length then some (items.map some) else none
  | _ => none

def firstPart? (name : String) : Json → Option Json
  | .object members => members.lookup name
  | .array items => items.head?
  | _ => none

def optionalString? : Option Json → Option (Option String)
  | none => some none
  | some .null => some none
  | some (.string s) => some (some s)
  | some _ => none

theorem sizeOf_lt_of_lookup {members : List (String × Json)} {name : String} {j : Json}
    (h : members.lookup name = some j) : sizeOf j < sizeOf (Json.object members) := by
  induction members with
  | nil => cases h
  | cons e rest ih =>
    obtain ⟨k, v⟩ := e
    simp only [List.lookup_cons] at h
    split at h
    · cases h
      simp only [Json.object.sizeOf_spec, List.cons.sizeOf_spec, Prod.mk.sizeOf_spec]
      omega
    · have := ih h
      simp only [Json.object.sizeOf_spec, List.cons.sizeOf_spec] at this ⊢
      omega

theorem sizeOf_lt_of_parts? {names : List String} {j v : Json} {parts : List (Option Json)}
    (h : j.parts? names = some parts) (hv : some v ∈ parts) : sizeOf v < sizeOf j := by
  cases j with
  | object members =>
    obtain ⟨-, h⟩ := Option.ite_none_right_eq_some.1 h
    cases h
    obtain ⟨name, -, hl⟩ := List.mem_map.1 hv
    exact sizeOf_lt_of_lookup hl
  | array items =>
    obtain ⟨-, h⟩ := Option.ite_none_right_eq_some.1 h
    cases h
    obtain ⟨w, hw, he⟩ := List.mem_map.1 hv
    cases he
    have := List.sizeOf_lt_of_mem hw
    simp only [Json.array.sizeOf_spec]
    omega
  | _ => cases h

end ContextQuery.Json
