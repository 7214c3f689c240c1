import ContextQuery.Proofs.Fq.Shape

namespace ContextQuery

inductive Operand
  | first
  | second

namespace Operand

def name : Operand → String
  | .first => "s1"
  | .second => "s2"

def pick (left right : Node) : Operand → Node
  | .first => left
  | .second => right

end Operand

/-- The node of the tree that the path leads to. -/
def Node.at? : List Operand → Node → Option Node
  | [], n => some n
  | o :: path, .boolean _ _ left right => (o.pick left right).at? path
  | _ :: _, .clause _ => none

def Json.at? : List Operand → Json → Option Json
  | [], j => some j
  | o :: path, j => (j.member? o.name).bind (Json.at? path)

namespace Fq
open Cql Registry

def freeOf (taken : List String) (ms : List Modifier) : List String :=
  (ms.map Modifier.name).filter fun name => !taken.contains name

/-- The names of a node's modifiers that are not names of its other members. -/
def freeNames : Node → List String
  | .clause c => freeOf clauseNames c.modifiers
  | .boolean _ ms _ _ => freeOf booleanNames ms

def modifierNames : Node → List String
  | .clause c => c.modifiers.map Modifier.name
  | .boolean _ ms _ _ => ms.map Modifier.name

section Names
variable {taken : List String} {ms : List Modifier}

theorem not_mem_of_mem_freeOf {name : String} (h : name ∈ freeOf taken ms) : name ∉ taken := by
  simpa using (List.mem_filter.1 h).2

theorem keys_modifierMembers (taken : List String) (ms : List Modifier) :
    (modifierMembers taken ms).map Prod.fst = freeOf taken ms := by
  rw [modifierMembers, List.map_map, freeOf, List.filter_map]
  rfl

/-- Each name that is restored is restored once. -/
theorem names_restoredModifiers (taken : List String) (ms : List Modifier) :
    (restoredModifiers taken ms).map Modifier.name = (freeOf taken ms).eraseDups := by
  rw [← keys_modifierMembers, ← Entries.keys_insertAll, restoredModifiers, List.map_map]
  rfl

theorem names_restoredModifiers_eq_iff :
    (restoredModifiers taken ms).map Modifier.name = freeOf taken ms ↔
      (freeOf taken ms).Nodup := by
  rw [names_restoredModifiers, ← keys_modifierMembers, ← Entries.keys_insertAll]
  exact Entries.keys_insertAll_eq_iff

end Names

section Written
variable {r : Registry} {choice : ServerChoice}

/-- The members that are written for a node, one behind the other. -/
def writtenMembers (r : Registry) (choice : ServerChoice) : Node → List (String × Json)
  | .clause c => (clauseMembers r choice c).map Json.stringMember
  | .boolean op ms left right =>
    (("op", op.keyword) :: modifierMembers booleanNames ms).map Json.stringMember ++
      [("s1", (Document.ofNode r choice left).object .kept),
        ("s2", (Document.ofNode r choice right).object .kept)]

/-- Where a name that comes again is kept, the object has all members that are written. -/
theorem object_kept (n : Node) :
    (Document.ofNode r choice n).object .kept = .object (writtenMembers r choice n) := by
  cases n with
  | clause c =>
    rw [Document.ofNode, Document.object, Json.addAll_kept, List.nil_append, writtenMembers]
  | boolean op ms left right =>
    rw [Document.ofNode, Document.object, Json.addAll_kept, List.nil_append, writtenMembers,
      Json.Repeats.add, Json.Repeats.add, List.append_assoc]
    rfl

/-- Only names of modifiers can come twice. -/
theorem nodup_keys_writtenMembers_iff (n : Node) :
    ((writtenMembers r choice n).map Prod.fst).Nodup ↔ (freeNames n).Nodup := by
  cases n with
  | clause c =>
    have hfree : ∀ name ∈ freeOf clauseNames c.modifiers, name ∉ clauseNames :=
      fun _ => not_mem_of_mem_freeOf
    have htaken : ∀ name ∈ (clauseFront r choice c).map Prod.fst ++ [], name ∈ clauseNames := by
      intro name hname
      rw [List.append_nil] at hname
      obtain ⟨e, he, rfl⟩ := List.mem_map.1 hname
      exact mem_clauseNames_of_clauseFront e he
    have hfront : ((clauseFront r choice c).map Prod.fst ++ []).Nodup := by
      rw [List.append_nil]
      exact nodup_clauseFront
    have hiff := nodup_append_free_iff hfront htaken hfree
    rwa [List.append_nil, ← keys_modifierMembers, ← List.map_append, ← clauseMembers_eq,
      ← keys_stringMember, keys_modifierMembers] at hiff
  | boolean op ms left right =>
    have hfree : ∀ name ∈ freeOf booleanNames ms, name ∉ booleanNames :=
      fun _ => not_mem_of_mem_freeOf
    have hkeys : (writtenMembers r choice (.boolean op ms left right)).map Prod.fst =
        ["op"] ++ freeOf booleanNames ms ++ ["s1", "s2"] := by
      rw [writtenMembers, List.map_append, keys_stringMember, List.map_cons, keys_modifierMembers]
      rfl
    rw [hkeys]
    exact nodup_append_free_iff (by decide) (by decide) hfree

/-- The operands of an operator are found under their names. -/
theorem member?_object_kept (op : BooleanOp) (ms : List Modifier) (left right : Node)
    (o : Operand) :
    ((Document.ofNode r choice (.boolean op ms left right)).object .kept).member? o.name =
      some ((Document.ofNode r choice (o.pick left right)).object .kept) := by
  have hop : o.name ≠ "op" := by cases o <;> decide
  have htaken : o.name ∈ booleanNames := by cases o <;> decide
  have hkey : o.name ∉ ((("op", op.keyword) :: modifierMembers booleanNames ms).map
      Json.stringMember).map Prod.fst := by
    rw [keys_stringMember, List.map_cons, keys_modifierMembers, List.mem_cons, not_or]
    exact ⟨hop, fun hmem => not_mem_of_mem_freeOf hmem htaken⟩
  have hnone : ((("op", op.keyword) :: modifierMembers booleanNames ms).map
      Json.stringMember).lookup o.name = none := by
    rwa [← Entries.hasKey_iff, Entries.hasKey, Option.not_isSome_iff_eq_none] at hkey
  rw [object_kept, Json.member?, writtenMembers, List.lookup_append, hnone]
  cases o <;> rfl

/-- The way to a node of the tree leads to the object that is written for it. -/
theorem at?_object_kept {path : List Operand} {n m : Node} (h : n.at? path = some m) :
    ((Document.ofNode r choice n).object .kept).at? path =
      some ((Document.ofNode r choice m).object .kept) := by
  induction path generalizing n with
  | nil =>
    obtain rfl := Option.some.inj h
    rfl
  | cons o path ih =>
    cases n with
    | clause c => cases h
    | boolean op ms left right =>
      rw [Json.at?, member?_object_kept, Option.bind_some]
      exact ih h

/-- The way to a node leads to what is restored of it. -/
theorem at?_restoredNode {path : List Operand} {n m : Node} (h : n.at? path = some m) :
    (restoredNode r choice n).at? path = some (restoredNode r choice m) := by
  induction path generalizing n with
  | nil =>
    obtain rfl := Option.some.inj h
    rfl
  | cons o path ih =>
    cases n with
    | clause c => cases h
    | boolean op ms left right => cases o <;> exact ih h

theorem modifierNames_restoredNode (n : Node) :
    modifierNames (restoredNode r choice n) = (freeNames n).eraseDups := by
  cases n with
  | clause c => exact names_restoredModifiers clauseNames c.modifiers
  | boolean op ms left right => exact names_restoredModifiers booleanNames ms

theorem modifierNames_restoredNode_eq_iff (n : Node) :
    modifierNames (restoredNode r choice n) = freeNames n ↔ (freeNames n).Nodup := by
  cases n with
  | clause c => exact names_restoredModifiers_eq_iff
  | boolean op ms left right => exact names_restoredModifiers_eq_iff

end Written

/-- The object that is written for a node of a query that was read from text has each name once, and
the node has all these modifiers again where it is read back, exactly if their names differ. -/
theorem modifierNames_of_read_write {choice : ServerChoice} {text : String} {q : Query}
    (hq : Cql.read choice text = .ok q) (h : q.root.height ≤ maxJsonNesting) {l : Layout}
    (hl : l.IsBlank) {path : List Operand} {n : Node} (hn : q.root.at? path = some n) :
    (∃ j members, Json.read? (some maxJsonNesting) .kept (write l q) = some j ∧
      j.at? path = some (.object members) ∧
      ((members.map Prod.fst).Nodup ↔ (freeNames n).Nodup)) ∧
    ∀ q', read choice (write l q) = .ok q' → ∃ n', q'.root.at? path = some n' ∧ SameShape n n' ∧
      modifierNames n' = (freeNames n).eraseDups ∧
      (modifierNames n' = freeNames n ↔ (freeNames n).Nodup) := by
  obtain ⟨rfl, hnamed⟩ := named_of_read hq
  constructor
  · refine ⟨_, writtenMembers q.registry q.choice n,
      Layout.read?_write_object hl (filled_ofNode _) ?_ .kept, ?_,
      nodup_keys_writtenMembers_iff n⟩
    · rwa [height_ofNode]
    · rw [at?_object_kept hn, object_kept]
  · intro q' hq'
    obtain ⟨-, rfl⟩ := (read_write_eq_restored_iff hnamed h hl).1 hq'
    exact ⟨restoredNode q.registry q.choice n, at?_restoredNode hn, sameShape_restoredNode _ _ n,
      modifierNames_restoredNode n, modifierNames_restoredNode_eq_iff n⟩

def repeatingText : String := "a and/x=1/x=2 b"

def repeatingNode : Node :=
  .boolean .and [⟨"x", "=", "1"⟩, ⟨"x", "=", "2"⟩]
    (.clause (.resolve seeded ServerChoice.standard.field ServerChoice.standard.relation [] "a"))
    (.clause (.resolve seeded ServerChoice.standard.field ServerChoice.standard.relation [] "b"))

def repeatingQuery : Query := ⟨some repeatingText, repeatingNode, seeded, .standard⟩

theorem means_repeatingText : Means .standard repeatingText ⟨repeatingNode, 1, []⟩ := by
  have htokens : tokenize repeatingText = .ok ([⟨.bareword, "a", ⟨1, 1, 0⟩, 1⟩,
      ⟨.bareword, "and", ⟨1, 3, 2⟩, 5⟩, ⟨.slash, "/", ⟨1, 6, 5⟩, 6⟩,
      ⟨.bareword, "x", ⟨1, 7, 6⟩, 7⟩, ⟨.comparator, "=", ⟨1, 8, 7⟩, 8⟩,
      ⟨.bareword, "1", ⟨1, 9, 8⟩, 9⟩, ⟨.slash, "/", ⟨1, 10, 9⟩, 10⟩,
      ⟨.bareword, "x", ⟨1, 11, 10⟩, 11⟩, ⟨.comparator, "=", ⟨1, 12, 11⟩, 12⟩,
      ⟨.bareword, "2", ⟨1, 13, 12⟩, 13⟩, ⟨.bareword, "b", ⟨1, 15, 14⟩, 15⟩] ++
      [.endOfText ⟨1, 16, 15⟩]) := by decide +kernel
  refine ⟨by decide, ⟨_, _, htokens, ?_⟩, by decide, by decide⟩
  exact .query (.term rfl (by decide)) (.operator (by decide)
    (.comparison rfl rfl (by decide) rfl rfl (.comparison rfl rfl (by decide) rfl rfl
      (.none (by decide)))) (.term rfl nofun) (.stop nofun))

theorem modifierNames_of_read_write_repeatingQuery :
    Cql.read .standard repeatingText = .ok repeatingQuery ∧
      (∃ j members, Json.read? (some maxJsonNesting) .kept (write .standard repeatingQuery) =
        some j ∧ j.at? [] = some (.object members) ∧ ¬ (members.map Prod.fst).Nodup) ∧
      ∃ q', read .standard (write .standard repeatingQuery) = .ok q' ∧
        modifierNames q'.root = ["x"] ∧ freeNames repeatingNode = ["x", "x"] := by
  have hread : Cql.read .standard repeatingText = .ok repeatingQuery :=
    read_of_means means_repeatingText
  have hroot : repeatingQuery.root.at? [] = some repeatingNode := rfl
  have hrepeats : ¬ (freeNames repeatingNode).Nodup := by decide
  obtain ⟨⟨j, members, hj, hmembers, hnodup⟩, hback⟩ := modifierNames_of_read_write hread
    (by decide) Layout.isBlank_standard hroot
  have hrestored : read .standard (write .standard repeatingQuery) =
      .ok ⟨none, restoredNode seeded .standard repeatingNode, seeded, .standard⟩ :=
    (read_write_eq_restored_iff (named_of_read hread).2 (by decide) Layout.isBlank_standard).2
      ⟨⟨trivial, by decide, by decide⟩, rfl⟩
  obtain ⟨n', hn', -, hnames, -⟩ := hback _ hrestored
  obtain rfl := Option.some.inj hn'
  exact ⟨hread, ⟨j, members, hj, hmembers, mt hnodup.1 hrepeats⟩, _, hrestored,
    hnames.trans (by decide), by decide⟩

end Fq

end ContextQuery
