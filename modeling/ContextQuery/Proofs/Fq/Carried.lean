import ContextQuery.Proofs.Fq.Restore

namespace ContextQuery.Fq

/-- Can FQ carry the modifier, and is its name free for it? FQ has members with a text and nothing
else. -/
structure Carried (taken : List String) (m : Modifier) : Prop where
  relation : m.relation = "="
  value : m.value ≠ ""
  free : m.name ∉ taken

def CarriedAll : Node → Prop :=
  Node.Each (fun c => ∀ m ∈ c.modifiers, Carried clauseNames m)
    fun ms => ∀ m ∈ ms, Carried booleanNames m

section Modifiers
variable {taken : List String} {ms : List Modifier}

theorem modifierMembers_eq (h : ∀ m ∈ ms, Carried taken m) :
    modifierMembers taken ms = ms.map fun m => (m.name, m.value) := by
  have hkept : ms.filter (fun m => !taken.contains m.name) = ms := by
    rw [List.filter_eq_self]
    intro m hm
    simpa using (h m hm).free
  rw [modifierMembers, hkept]
  apply List.map_congr_left
  intro m hm
  have hv : m.value.isEmpty = false := String.isEmpty_eq_false_iff.2 (h m hm).value
  simp only [modifierMember, hv, Bool.false_eq_true, ↓reduceIte]

theorem keys_modifierMembers_eq (h : ∀ m ∈ ms, Carried taken m) :
    (modifierMembers taken ms).map Prod.fst = ms.map Modifier.name := by
  rw [modifierMembers_eq h, List.map_map]
  rfl

theorem restoredModifiers_eq (h : ∀ m ∈ ms, Carried taken m) (hn : (ms.map Modifier.name).Nodup) :
    restoredModifiers taken ms = ms := by
  have hkeys : (([] ++ modifierMembers taken ms).map Prod.fst).Nodup := by
    rwa [List.nil_append, keys_modifierMembers_eq h]
  rw [restoredModifiers, Entries.insertAll_eq_append hkeys, List.nil_append, modifierMembers_eq h,
    List.map_map]
  conv_rhs => rw [← List.map_id ms]
  apply List.map_congr_left
  intro m hm
  have hr := (h m hm).relation
  obtain ⟨name, relation, value⟩ := m
  obtain rfl : relation = "=" := hr
  rfl

end Modifiers

theorem ofMnemonic_mnemonic {relation : String} (h : relation ∉ mnemonics.map Prod.snd) :
    ofMnemonic (mnemonic relation) = relation := by
  have hall : ∀ p ∈ mnemonics, ofMnemonic p.2 = p.1 := by decide
  unfold mnemonic
  split
  · next p hp =>
    have hfound := List.find?_some hp
    have hr : p.1 = relation := beq_iff_eq.1 hfound
    rw [hall p (List.mem_of_find?_eq_some hp), hr]
  · have hnone : mnemonics.find? (fun p => p.2 == relation) = none := by
      rw [List.find?_eq_none]
      intro p hp he
      exact h (List.mem_map.2 ⟨p, hp, beq_iff_eq.1 he⟩)
    rw [ofMnemonic, hnone]

end ContextQuery.Fq
