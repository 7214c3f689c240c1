import ContextQuery.Proofs.Cql.Origin
import ContextQuery.Proofs.Fq.Restore

namespace ContextQuery.Fq
open Cql Registry

/-- Have the trees the same operators over the same terms? -/
def SameShape : Node → Node → Prop := Node.Alike (fun c d => c.term = d.term) fun _ _ => True

theorem sameShape_restoredNode (r : Registry) (choice : ServerChoice) (n : Node) :
    SameShape n (restoredNode r choice n) := by
  induction n with
  | clause c => exact .clause rfl
  | boolean op ms left right ihl ihr => exact .boolean trivial ihl ihr

theorem named_of_read {choice : ServerChoice} {text : String} {q : Query}
    (h : Cql.read choice text = .ok q) : q.choice = choice ∧ Named q.root := by
  obtain ⟨m, hm, rfl⟩ := means_of_read h
  exact ⟨rfl, named_of_writable hm.isRead.node.writable⟩

/-- Whatever names its modifiers have, a query that was read from text keeps its shape through FQ if
it is read back, and it is read back exactly where no clause looks like an operator. -/
theorem sameShape_of_read_write {choice : ServerChoice} {text : String} {q : Query}
    (hq : Cql.read choice text = .ok q) (h : q.root.height ≤ maxJsonNesting) {l : Layout}
    (hl : l.IsBlank) :
    (∀ q', read choice (write l q) = .ok q' → SameShape q.root q'.root) ∧
      ((∃ q', read choice (write l q) = .ok q') ↔ ShowsClauses q.root) := by
  obtain ⟨rfl, hn⟩ := named_of_read hq
  have hread {q' : Query} : read q.choice (write l q) = .ok q' ↔ ShowsClauses q.root ∧
      q' = ⟨none, restoredNode q.registry q.choice q.root, seeded, q.choice⟩ :=
    read_write_eq_restored_iff hn h hl
  constructor
  · intro q' hq'
    obtain ⟨-, rfl⟩ := hread.1 hq'
    exact sameShape_restoredNode q.registry q.choice q.root
  · constructor
    · rintro ⟨q', hq'⟩
      exact (hread.1 hq').1
    · intro hs
      exact ⟨_, hread.2 ⟨hs, rfl⟩⟩

/-- A clause whose modifiers have the names of an operator's members. -/
def disguisedText : String := "title =/op=and/s1=x/s2=y fish"

def disguisedClause : Clause :=
  .resolve seeded "title" "=" [⟨"op", "=", "and"⟩, ⟨"s1", "=", "x"⟩, ⟨"s2", "=", "y"⟩] "fish"

def disguisedQuery : Query := ⟨some disguisedText, .clause disguisedClause, seeded, .standard⟩

theorem means_disguisedText : Means .standard disguisedText ⟨.clause disguisedClause, 2, []⟩ := by
  have hread : Reads (.ofText disguisedText)
      [⟨.bareword, "title", ⟨1, 1, 0⟩, 5⟩, ⟨.comparator, "=", ⟨1, 7, 6⟩, 7⟩,
        ⟨.slash, "/", ⟨1, 8, 7⟩, 8⟩, ⟨.bareword, "op", ⟨1, 9, 8⟩, 10⟩,
        ⟨.comparator, "=", ⟨1, 11, 10⟩, 11⟩, ⟨.bareword, "and", ⟨1, 12, 11⟩, 14⟩,
        ⟨.slash, "/", ⟨1, 15, 14⟩, 15⟩, ⟨.bareword, "s1", ⟨1, 16, 15⟩, 17⟩,
        ⟨.comparator, "=", ⟨1, 18, 17⟩, 18⟩, ⟨.bareword, "x", ⟨1, 19, 18⟩, 19⟩,
        ⟨.slash, "/", ⟨1, 20, 19⟩, 20⟩, ⟨.bareword, "s2", ⟨1, 21, 20⟩, 22⟩,
        ⟨.comparator, "=", ⟨1, 23, 22⟩, 23⟩, ⟨.bareword, "y", ⟨1, 24, 23⟩, 24⟩,
        ⟨.bareword, "fish", ⟨1, 26, 25⟩, 29⟩] ⟨[], ⟨1, 30, 29⟩⟩ :=
    .cons rfl (by decide) (.cons rfl (by decide) (.cons rfl (by decide) (.cons rfl (by decide)
      (.cons rfl (by decide) (.cons rfl (by decide) (.cons rfl (by decide) (.cons rfl (by decide)
        (.cons rfl (by decide) (.cons rfl (by decide) (.cons rfl (by decide)
          (.cons rfl (by decide) (.cons rfl (by decide) (.cons rfl (by decide)
            (.cons rfl (by decide) (.nil _)))))))))))))))
  have htokens := tokenize_eq_ok (congrArg Scan.ending hread.scan_ofText)
    (congrArg Scan.tokens hread.scan_ofText)
  refine ⟨by decide, ⟨_, _, htokens, ?_⟩, by decide, by decide⟩
  exact .query (.indexed (by decide) (by decide)
    (.comparison rfl rfl (by decide) rfl rfl (.comparison rfl rfl (by decide) rfl rfl
      (.comparison rfl rfl (by decide) rfl rfl (.none (by decide)))))
    (.term (by decide) nofun)) (.stop nofun)

theorem sameShape_of_read_write_disguisedQuery :
    Cql.read .standard disguisedText = .ok disguisedQuery ∧
      ¬ ∃ q', read .standard (write .standard disguisedQuery) = .ok q' := by
  have hread : Cql.read .standard disguisedText = .ok disguisedQuery :=
    read_of_means means_disguisedText
  refine ⟨hread, fun h => ?_⟩
  have hshown : ShowsClauses disguisedQuery.root :=
    (sameShape_of_read_write hread (by decide) Layout.isBlank_standard).2.1 h
  have hlooks : LooksBoolean disguisedClause.modifiers := by decide
  exact hshown hlooks

end ContextQuery.Fq
