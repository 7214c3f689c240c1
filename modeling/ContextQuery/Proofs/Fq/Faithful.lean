import ContextQuery.Proofs.Fq.Carried

namespace ContextQuery.Fq
open Registry

instance (taken : List String) (m : Modifier) : Decidable (Carried taken m) :=
  decidable_of_iff (m.relation = "=" ∧ m.value ≠ "" ∧ m.name ∉ taken)
    ⟨fun ⟨hr, hv, hf⟩ => ⟨hr, hv, hf⟩, fun ⟨hr, hv, hf⟩ => ⟨hr, hv, hf⟩⟩

/-- Does FQ carry each of the modifiers, and none in the place of another? -/
structure FaithfulModifiers (taken : List String) (ms : List Modifier) : Prop where
  carried : ∀ m ∈ ms, Carried taken m
  named : ∀ m ∈ ms, m.name ≠ ""
  distinct : (ms.map Modifier.name).Nodup

instance (taken : List String) (ms : List Modifier) : Decidable (FaithfulModifiers taken ms) :=
  decidable_of_iff ((∀ m ∈ ms, Carried taken m) ∧ (∀ m ∈ ms, m.name ≠ "") ∧
      (ms.map Modifier.name).Nodup)
    ⟨fun ⟨hc, hn, hd⟩ => ⟨hc, hn, hd⟩, fun ⟨hc, hn, hd⟩ => ⟨hc, hn, hd⟩⟩

/-- Is the index written as a name that stands for it, or left out where the server's choice
does? -/
structure FaithfulField (choice : ServerChoice) (c : Clause) : Prop where
  named : c.field.name ≠ ""
  resolved : seeded.split (seeded.qualify c.field) = c.field
  chosen : c.hasChosenField seeded choice = true → c.field = seeded.split choice.field

instance (choice : ServerChoice) (c : Clause) : Decidable (FaithfulField choice c) :=
  decidable_of_iff (c.field.name ≠ "" ∧ seeded.split (seeded.qualify c.field) = c.field ∧
      (c.hasChosenField seeded choice = true → c.field = seeded.split choice.field))
    ⟨fun ⟨hn, hr, hc⟩ => ⟨hn, hr, hc⟩, fun ⟨hn, hr, hc⟩ => ⟨hn, hr, hc⟩⟩

/-- The same for the relation, which is also not taken for a comparator. -/
structure FaithfulRelation (choice : ServerChoice) (c : Clause) : Prop where
  named : c.relation.name ≠ ""
  resolved : seeded.splitRelation (seeded.qualifyRelation c.relation) = c.relation
  noMnemonic : seeded.qualifyRelation c.relation ∉ mnemonics.map Prod.snd
  chosen : c.hasChosenRelation seeded choice = true →
    c.relation = seeded.splitRelation choice.relation

instance (choice : ServerChoice) (c : Clause) : Decidable (FaithfulRelation choice c) :=
  decidable_of_iff (c.relation.name ≠ "" ∧
      seeded.splitRelation (seeded.qualifyRelation c.relation) = c.relation ∧
      seeded.qualifyRelation c.relation ∉ mnemonics.map Prod.snd ∧
      (c.hasChosenRelation seeded choice = true →
        c.relation = seeded.splitRelation choice.relation))
    ⟨fun ⟨hn, hr, hm, hc⟩ => ⟨hn, hr, hm, hc⟩, fun ⟨hn, hr, hm, hc⟩ => ⟨hn, hr, hm, hc⟩⟩

structure FaithfulClause (choice : ServerChoice) (c : Clause) : Prop where
  modifiers : FaithfulModifiers clauseNames c.modifiers
  shown : ¬ LooksBoolean c.modifiers
  field : FaithfulField choice c
  relation : FaithfulRelation choice c

instance (choice : ServerChoice) (c : Clause) : Decidable (FaithfulClause choice c) :=
  decidable_of_iff (FaithfulModifiers clauseNames c.modifiers ∧ ¬ LooksBoolean c.modifiers ∧
      FaithfulField choice c ∧ FaithfulRelation choice c)
    ⟨fun ⟨hm, hs, hf, hr⟩ => ⟨hm, hs, hf, hr⟩, fun ⟨hm, hs, hf, hr⟩ => ⟨hm, hs, hf, hr⟩⟩

def Faithful (choice : ServerChoice) : Node → Prop :=
  Node.Each (FaithfulClause choice) (FaithfulModifiers booleanNames)

instance (choice : ServerChoice) (n : Node) : Decidable (Faithful choice n) :=
  inferInstanceAs (Decidable (n.Each _ _))

variable {choice : ServerChoice} {c : Clause}

theorem FaithfulModifiers.restored {taken : List String} {ms : List Modifier}
    (h : FaithfulModifiers taken ms) : restoredModifiers taken ms = ms :=
  restoredModifiers_eq h.carried h.distinct

theorem FaithfulField.restored (h : FaithfulField choice c) :
    seeded.split (if leavesOutField seeded choice c then choice.field
      else seeded.qualify c.field) = c.field := by
  have hnamed : c.field.name.isEmpty = false := String.isEmpty_eq_false_iff.2 h.named
  rw [leavesOutField, hnamed, Bool.false_or]
  split
  · next hchosen => exact (h.chosen hchosen).symm
  · exact h.resolved

theorem FaithfulRelation.restored (h : FaithfulRelation choice c) :
    seeded.splitRelation (if leavesOutRelation seeded choice c then choice.relation
      else ofMnemonic (mnemonic (seeded.qualifyRelation c.relation))) = c.relation := by
  have hnamed : c.relation.name.isEmpty = false := String.isEmpty_eq_false_iff.2 h.named
  rw [leavesOutRelation, hnamed, Bool.false_or, ofMnemonic_mnemonic h.noMnemonic]
  split
  · next hchosen => exact (h.chosen hchosen).symm
  · exact h.resolved

theorem FaithfulClause.restored (h : FaithfulClause choice c) :
    restoredClause seeded choice c = c := by
  rw [restoredClause, Clause.resolve, h.field.restored, h.relation.restored, h.modifiers.restored]

theorem Faithful.restored {n : Node} (h : Faithful choice n) :
    restoredNode seeded choice n = n := by
  induction n with
  | clause c => rw [restoredNode, FaithfulClause.restored h]
  | boolean op ms left right ihl ihr =>
    obtain ⟨hms, hl, hr⟩ := h
    rw [restoredNode, hms.restored, ihl hl, ihr hr]

theorem Faithful.named {n : Node} (h : Faithful choice n) : Named n :=
  h.mono (fun _ hc => hc.modifiers.named) fun _ hms => hms.named

theorem Faithful.showsClauses {n : Node} (h : Faithful choice n) : ShowsClauses n :=
  h.mono (fun _ hc => hc.shown) fun _ _ => trivial

/-- A faithful tree over the seeded registry that is not too high for JSON is read back from FQ as
it was, whatever the server's choice and the layout are. -/
theorem read_write_of_faithful {q : Query} (hr : q.registry = seeded)
    (h : q.root.height ≤ maxJsonNesting) (hf : Faithful q.choice q.root) {l : Layout}
    (hl : l.IsBlank) : read q.choice (write l q) = .ok ⟨none, q.root, seeded, q.choice⟩ := by
  have hroot : restoredNode q.registry q.choice q.root = q.root := by
    rw [hr]
    exact hf.restored
  rw [read_write_eq_restored_iff hf.named h hl, hroot]
  exact ⟨hf.showsClauses, rfl⟩

/-- An index in capitals, a clause that is left to the server, names of an operator's members on a
clause and of a clause's members on an operator, and characters that JSON escapes. -/
def faithfulQuery : Query :=
  ⟨none, .boolean .prox [⟨"distance", "=", "2"⟩, ⟨"term", "=", "\"\\"⟩]
    (.clause ⟨⟨"Creator", some "info:srw/cql-context-set/1/dc-v1.1"⟩,
      ⟨">=", some "info:srw/cql-context-set/1/cql-v1.2"⟩,
      [⟨"s2", "=", "\n"⟩, ⟨"op", "=", "or"⟩], "a\"b"⟩)
    (.clause ⟨⟨"title", some "info:srw/cql-context-set/1/dc-v1.1"⟩,
      ⟨"any", some "info:srw/cql-context-set/1/cql-v1.2"⟩, [], ""⟩),
    seeded, ⟨"DC.title", "cql.any"⟩⟩

theorem read_write_faithfulQuery : Faithful faithfulQuery.choice faithfulQuery.root ∧
    read faithfulQuery.choice (write ⟨"\t", "\r\n"⟩ faithfulQuery) = .ok faithfulQuery := by
  have hf : Faithful faithfulQuery.choice faithfulQuery.root := by decide +kernel
  have hl : Layout.IsBlank ⟨"\t", "\r\n"⟩ := by
    unfold Layout.IsBlank
    decide
  exact ⟨hf, read_write_of_faithful rfl (by decide) hf hl⟩

end ContextQuery.Fq
