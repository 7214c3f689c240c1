import ContextQuery.Proofs.Fq.Restore
import ContextQuery.Proofs.Json.Nesting

namespace ContextQuery.Fq
open Json

section Nesting
variable {n : Nat}

/-- The members that are texts take no room. -/
theorem fitsIn_members (ms : List (String × String)) :
    ∀ m ∈ Document.members ms, m.2.FitsIn n := by
  apply fitsIn_insertAll (List.forall_mem_nil _)
  intro m hm
  obtain ⟨e, -, rfl⟩ := List.mem_map.1 hm
  cases n <;> trivial

theorem fitsIn_operands_iff {members : List (String × Json)} (h : ∀ m ∈ members, m.2.FitsIn n)
    (s1 s2 : Json) :
    (∀ m ∈ Entries.insert "s2" s2 (Entries.insert "s1" s1 members), m.2.FitsIn n) ↔
      s1.FitsIn n ∧ s2.FitsIn n := by
  constructor
  · intro hall
    have hs1 : (Entries.insert "s2" s2 (Entries.insert "s1" s1 members)).lookup "s1" = some s1 := by
      rw [Entries.lookup_insert_of_ne (by decide), Entries.lookup_insert_self]
    exact ⟨hall _ (Entries.mem_of_lookup hs1),
      hall _ (Entries.mem_of_lookup (Entries.lookup_insert_self _ _ _))⟩
  · rintro ⟨hs1, hs2⟩
    exact fitsIn_insert (fitsIn_insert h hs1) hs2

theorem fitsIn_json_iff (d : Document) : d.json.FitsIn n ↔ d.height ≤ n := by
  induction d generalizing n with
  | clause ms =>
    cases n with
    | zero => exact iff_of_false id (Nat.not_succ_le_zero 0)
    | succ n => exact iff_of_true (fitsIn_members ms) (Nat.le_add_left 1 n)
  | boolean ms s1 s2 ih1 ih2 =>
    rw [Document.height]
    cases n with
    | zero =>
      apply iff_of_false id
      omega
    | succ n =>
      have hoperands := fitsIn_operands_iff (fitsIn_members (n := n) ms) s1.json s2.json
      rw [ih1, ih2] at hoperands
      refine hoperands.trans ?_
      omega

/-- The object of a document is nested as deep as the document is high. -/
theorem nesting_json (d : Document) : d.json.nesting = d.height := by
  have hle (n : Nat) : d.json.nesting ≤ n ↔ d.height ≤ n := by
    rw [← fitsIn_iff_nesting_le, fitsIn_json_iff]
  exact Nat.le_antisymm ((hle _).2 (Nat.le_refl _)) ((hle _).1 (Nat.le_refl _))

end Nesting

/-- However it is laid out, a query whose tree is no higher than JSON text may be nested is read as
the object of its document, which is nested as deep as the tree is high. -/
theorem read?_write_layouts {q : Query} (h : q.root.height ≤ maxJsonNesting) {l l' : Layout}
    (hl : l.IsBlank) (hl' : l'.IsBlank) : ∃ members,
      (Document.ofNode q.registry q.choice q.root).json = .object members ∧
      read? (some maxJsonNesting) .replaced (write l q) = some (.object members) ∧
      read? (some maxJsonNesting) .replaced (write l' q) = some (.object members) ∧
      (Json.object members).nesting = q.root.height := by
  have hheight : (Document.ofNode q.registry q.choice q.root).height = q.root.height :=
    height_ofNode q.root
  have hread {l : Layout} (hl : l.IsBlank) : read? (some maxJsonNesting) .replaced (write l q) =
      some (Document.ofNode q.registry q.choice q.root).json :=
    Layout.read?_write hl (filled_ofNode q.root) (by rwa [hheight])
  obtain ⟨members, hmembers⟩ :
      ∃ members, (Document.ofNode q.registry q.choice q.root).json = .object members := by
    cases q.root <;> exact ⟨_, rfl⟩
  refine ⟨members, hmembers, ?_, ?_, ?_⟩
  · rw [hread hl, hmembers]
  · rw [hread hl', hmembers]
  · rw [← hmembers, nesting_json, hheight]

/-- A modifier without a name, one that comes again, and characters that JSON escapes, in operators
within each other on both sides. -/
def crowdedQuery : Query :=
  ⟨none, .boolean .or [⟨"", "<", ""⟩, ⟨"\x7b", "=", "\","⟩, ⟨"\x7b", "", "\x00"⟩]
    (.boolean .not [] (.clause (.resolve .seeded "dc.\n" "cql.=" [] "a")) (.clause
      (.resolve .seeded "" "any" [⟨"s1", "=", "x"⟩, ⟨"op", "", ""⟩] "\\")))
    (.boolean .prox [] (.clause (.resolve .seeded "x" "<" [] "")) (.boolean .and []
      (.clause (.resolve .seeded "x" "" [] "")) (.clause (.resolve .seeded "x" "\"" [] "")))),
    .empty, ⟨"", ":"⟩⟩

theorem read?_write_layouts_crowdedQuery : Layout.IsBlank ⟨"", ""⟩ ∧ Layout.IsBlank ⟨"\t", "\r\n "⟩ ∧
    ∃ members,
      (Document.ofNode crowdedQuery.registry crowdedQuery.choice crowdedQuery.root).json =
        .object members ∧
      read? (some maxJsonNesting) .replaced (write ⟨"", ""⟩ crowdedQuery) =
        some (.object members) ∧
      read? (some maxJsonNesting) .replaced (write ⟨"\t", "\r\n "⟩ crowdedQuery) =
        some (.object members) ∧
      (Json.object members).nesting = 4 := by
  have hnone : Layout.IsBlank ⟨"", ""⟩ := by
    unfold Layout.IsBlank
    decide
  have hblank : Layout.IsBlank ⟨"\t", "\r\n "⟩ := by
    unfold Layout.IsBlank
    decide
  exact ⟨hnone, hblank, read?_write_layouts (q := crowdedQuery) (by decide) hnone hblank⟩

end ContextQuery.Fq
