import ContextQuery.Proofs.Cql.Reread
import ContextQuery.Proofs.Fq.Document
import ContextQuery.Proofs.Fq.Reading

namespace ContextQuery.Fq
open Registry

/-- The modifiers that are restored. They are equalities, and those whose names are taken are lost.
A name that comes again keeps its first place and takes its last value. -/
def restoredModifiers (taken : List String) (ms : List Modifier) : List Modifier :=
  (Entries.insertAll [] (modifierMembers taken ms)).map fun e => ⟨e.1, "=", e.2⟩

def leavesOutField (r : Registry) (choice : ServerChoice) (c : Clause) : Bool :=
  c.field.name.isEmpty || c.hasChosenField r choice

def leavesOutRelation (r : Registry) (choice : ServerChoice) (c : Clause) : Bool :=
  c.relation.name.isEmpty || c.hasChosenRelation r choice

/-- The clause that is restored. The server's choice stands in for what is left out. -/
def restoredClause (r : Registry) (choice : ServerChoice) (c : Clause) : Clause :=
  .resolve seeded (if leavesOutField r choice c then choice.field else r.qualify c.field)
    (if leavesOutRelation r choice c then choice.relation
      else ofMnemonic (mnemonic (r.qualifyRelation c.relation)))
    (restoredModifiers clauseNames c.modifiers) c.term

def restoredNode (r : Registry) (choice : ServerChoice) : Node → Node
  | .clause c => .clause (restoredClause r choice c)
  | .boolean op ms left right =>
    .boolean op (restoredModifiers booleanNames ms) (restoredNode r choice left)
      (restoredNode r choice right)

/-- Do the modifiers make a clause look like an operator? -/
def LooksBoolean (ms : List Modifier) : Prop := ∀ name ∈ booleanNames, name ∈ ms.map Modifier.name

instance (ms : List Modifier) : Decidable (LooksBoolean ms) :=
  inferInstanceAs (Decidable (∀ name ∈ booleanNames, _))

def ShowsClauses : Node → Prop :=
  Node.Each (fun c => ¬ LooksBoolean c.modifiers) fun _ => True

def Named : Node → Prop :=
  Node.Each (fun c => ∀ m ∈ c.modifiers, m.name ≠ "") fun ms => ∀ m ∈ ms, m.name ≠ ""

theorem named_of_writable {n : Node} (h : n.Writable) : Named n :=
  h.mono (fun _ hc m hm => (hc m hm).1) fun _ hms m hm => (hms m hm).1

section Modifiers
variable {taken : List String} {ms : List Modifier}

theorem mem_keys_modifierMembers {name : String} :
    name ∈ (modifierMembers taken ms).map Prod.fst ↔ name ∈ ms.map Modifier.name ∧ name ∉ taken := by
  simp only [modifierMembers, List.map_map, List.mem_map, List.mem_filter, Bool.not_eq_true',
    List.contains_eq_mem, decide_eq_false_iff_not, Function.comp_apply, modifierMember]
  constructor
  · rintro ⟨m, ⟨hm, hfree⟩, rfl⟩
    exact ⟨⟨m, hm, rfl⟩, hfree⟩
  · rintro ⟨⟨m, hm, rfl⟩, hfree⟩
    exact ⟨m, ⟨hm, hfree⟩, rfl⟩

theorem not_mem_of_mem_modifierMembers {e : String × String} (h : e ∈ modifierMembers taken ms) :
    e.1 ∉ taken :=
  (mem_keys_modifierMembers.1 (List.mem_map_of_mem h)).2

theorem keys_stringMember (es : List (String × String)) :
    (es.map Json.stringMember).map Prod.fst = es.map Prod.fst := by
  rw [List.map_map]
  rfl

theorem readModifier_of_ne {name value : String} (h : name ≠ "") :
    readModifier (Json.stringMember (name, value)) = .ok ⟨name, "=", value⟩ := by
  have hn : name.isEmpty = false := String.isEmpty_eq_false_iff.2 h
  simp only [readModifier, Json.stringMember, hn, Bool.false_eq_true, ↓reduceIte]
  rfl

theorem name_ne_of_mem_insertAll (hnames : ∀ m ∈ ms, m.name ≠ "") {e : String × String}
    (h : e ∈ Entries.insertAll [] (modifierMembers taken ms)) : e.1 ≠ "" := by
  obtain ⟨hname, -⟩ := mem_keys_modifierMembers.1 (Entries.key_mem_of_mem_insertAll h)
  obtain ⟨m, hm, hme⟩ := List.mem_map.1 hname
  exact hme ▸ hnames m hm

/-- The members that are not taken are the modifiers. -/
theorem readModifiers_eq (hnames : ∀ m ∈ ms, m.name ≠ "") {front back : List (String × Json)}
    (hfront : ∀ e ∈ front, e.1 ∈ taken) (hback : ∀ e ∈ back, e.1 ∈ taken) :
    readModifiers taken (Entries.insertAll []
      (front ++ (modifierMembers taken ms).map Json.stringMember ++ back)) =
      .ok (restoredModifiers taken ms) := by
  have htaken {es : List (String × Json)} (hes : ∀ e ∈ es, e.1 ∈ taken) :
      es.filter (fun e => !taken.contains e.1) = [] := by
    rw [List.filter_eq_nil_iff]
    intro e he
    simpa using hes e he
  have hkept : ((modifierMembers taken ms).map Json.stringMember).filter
      (fun e => !taken.contains e.1) = (modifierMembers taken ms).map Json.stringMember := by
    rw [List.filter_eq_self]
    intro e he
    have hkey : e.1 ∈ ((modifierMembers taken ms).map Json.stringMember).map Prod.fst :=
      List.mem_map_of_mem he
    rw [keys_stringMember, mem_keys_modifierMembers] at hkey
    simpa using hkey.2
  -- The members are filtered by their names, so they may be filtered before they are inserted.
  have hfilter := Entries.filter_insertAll (p := fun name => !taken.contains name) []
    (front ++ (modifierMembers taken ms).map Json.stringMember ++ back)
  rw [readModifiers, hfilter, List.filter_append, List.filter_append, htaken hfront, htaken hback,
    hkept, List.filter_nil, List.nil_append, List.append_nil]
  have hmap := Entries.insertAll_map Json.string [] (modifierMembers taken ms)
  rw [List.map_nil] at hmap
  change (Entries.insertAll [] ((modifierMembers taken ms).map
    fun e => (e.1, Json.string e.2))).mapM _ = _
  rw [← hmap, restoredModifiers, List.mapM_map, mapM_eq_ok_iff, List.forall₂_map_right_iff,
    List.forall₂_same]
  intro e he
  exact readModifier_of_ne (name_ne_of_mem_insertAll hnames he)

end Modifiers

variable {r : Registry} {choice : ServerChoice}

section Clause
variable {c : Clause}

def clauseFront (r : Registry) (choice : ServerChoice) (c : Clause) : List (String × String) :=
  ("term", c.term) ::
    ((if leavesOutField r choice c then [] else [("field", r.qualify c.field)]) ++
      (if leavesOutRelation r choice c then []
        else [("relation", mnemonic (r.qualifyRelation c.relation))]))

theorem clauseMembers_eq (r : Registry) (choice : ServerChoice) (c : Clause) :
    clauseMembers r choice c =
      clauseFront r choice c ++ modifierMembers clauseNames c.modifiers := by
  simp only [clauseMembers, clauseFront, List.cons_append, List.append_assoc]
  rfl

theorem mem_clauseNames_of_clauseFront : ∀ e ∈ clauseFront r choice c, e.1 ∈ clauseNames := by
  intro e he
  unfold clauseFront at he
  split at he <;> split at he <;> simp at he <;> rcases he with rfl | rfl | rfl <;>
    simp [clauseNames]

theorem nodup_clauseFront : ((clauseFront r choice c).map Prod.fst).Nodup := by
  unfold clauseFront
  split <;> split <;> simp

def clauseEntries (r : Registry) (choice : ServerChoice) (c : Clause) : List (String × Json) :=
  Document.members (clauseMembers r choice c)

theorem clauseEntries_eq (r : Registry) (choice : ServerChoice) (c : Clause) :
    clauseEntries r choice c = Entries.insertAll []
      ((clauseFront r choice c).map Json.stringMember ++
        (modifierMembers clauseNames c.modifiers).map Json.stringMember ++ []) := by
  rw [clauseEntries, Document.members, clauseMembers_eq, List.map_append, List.append_nil]

/-- The members that are not modifiers are as they were written. -/
theorem lookup_clauseEntries {name : String} (h : name ∈ clauseNames) :
    (clauseEntries r choice c).lookup name =
      ((clauseFront r choice c).map Json.stringMember).lookup name := by
  have hkeys : (((clauseFront r choice c).map Json.stringMember).map Prod.fst).Nodup := by
    rw [keys_stringMember]
    exact nodup_clauseFront
  have hfree : name ∉ ((modifierMembers clauseNames c.modifiers).map Json.stringMember).map
      Prod.fst := by
    rw [keys_stringMember, mem_keys_modifierMembers]
    exact fun hname => hname.2 h
  rw [clauseEntries_eq, List.append_nil, Entries.insertAll_append,
    Entries.lookup_insertAll_of_not_mem hfree, Entries.insertAll_eq_append hkeys, List.nil_append]

theorem lookup_term : (clauseEntries r choice c).lookup "term" = some (.string c.term) := by
  rw [lookup_clauseEntries (by decide)]
  rfl

theorem lookup_field (r : Registry) (choice : ServerChoice) (c : Clause) :
    (clauseEntries r choice c).lookup "field" =
      if leavesOutField r choice c then none else some (.string (r.qualify c.field)) := by
  rw [lookup_clauseEntries (by decide), clauseFront]
  by_cases hf : leavesOutField r choice c = true <;>
    by_cases hr : leavesOutRelation r choice c = true <;>
    simp [hf, hr, Json.stringMember, List.lookup_cons]

theorem lookup_relation (r : Registry) (choice : ServerChoice) (c : Clause) :
    (clauseEntries r choice c).lookup "relation" =
      if leavesOutRelation r choice c then none
      else some (.string (mnemonic (r.qualifyRelation c.relation))) := by
  rw [lookup_clauseEntries (by decide), clauseFront]
  by_cases hf : leavesOutField r choice c = true <;>
    by_cases hr : leavesOutRelation r choice c = true <;>
    simp [hf, hr, Json.stringMember, List.lookup_cons]

theorem memberTextOr_eq {members : List (String × Json)} {name value : String} {b : Bool}
    (default : String) (h : members.lookup name = if b then none else some (.string value)) :
    memberTextOr members name default = .ok (if b then default else value) ∧
      Entries.hasKey members name = !b := by
  cases b <;> simp [memberTextOr, Entries.hasKey, memberText, h, textOf]

theorem readClause_eq (hnames : ∀ m ∈ c.modifiers, m.name ≠ "") :
    readClause seeded choice (clauseEntries r choice c) = .ok (restoredClause r choice c) := by
  have hterm : memberText (clauseEntries r choice c) "term" = .ok c.term := by
    rw [memberText, lookup_term]
    rfl
  obtain ⟨hfield, -⟩ := memberTextOr_eq choice.field (lookup_field r choice c)
  obtain ⟨hrelation, hkey⟩ := memberTextOr_eq choice.relation (lookup_relation r choice c)
  have hmodifiers : readModifiers clauseNames (clauseEntries r choice c) =
      .ok (restoredModifiers clauseNames c.modifiers) := by
    rw [clauseEntries_eq]
    refine readModifiers_eq hnames ?_ nofun
    intro e he
    obtain ⟨e', he', rfl⟩ := List.mem_map.1 he
    exact mem_clauseNames_of_clauseFront e' he'
  rw [readClause, hterm, hfield, hrelation, hkey, hmodifiers]
  unfold restoredClause
  cases leavesOutRelation r choice c <;> rfl

/-- All members of a clause are strings. -/
theorem string_of_lookup {name : String} {j : Json}
    (h : (clauseEntries r choice c).lookup name = some j) : ∃ s, j = .string s := by
  have hmap := Entries.insertAll_map Json.string [] (clauseMembers r choice c)
  have hentries : clauseEntries r choice c =
      (Entries.insertAll [] (clauseMembers r choice c)).map fun e => (e.1, Json.string e.2) :=
    hmap.symm
  have hmem : (name, j) ∈ clauseEntries r choice c := Entries.mem_of_lookup h
  rw [hentries] at hmem
  obtain ⟨e, -, he⟩ := List.mem_map.1 hmem
  exact ⟨e.2, (Prod.mk.inj he).2.symm⟩

/-- A name of an operator's members is a member of a clause only as a modifier. -/
theorem hasKey_clauseEntries (r : Registry) (choice : ServerChoice) {name : String}
    (hname : name ∉ clauseNames) : Entries.hasKey (clauseEntries r choice c) name = true ↔
      name ∈ c.modifiers.map Modifier.name := by
  rw [Entries.hasKey_iff, clauseEntries_eq, Entries.mem_keys_insertAll, List.append_nil,
    List.map_append, keys_stringMember, keys_stringMember, List.mem_append,
    mem_keys_modifierMembers]
  constructor
  · rintro (hmem | hmem | hmem)
    · cases hmem
    · obtain ⟨e, he, rfl⟩ := List.mem_map.1 hmem
      exact absurd (mem_clauseNames_of_clauseFront e he) hname
    · exact hmem.1
  · exact fun hmem => .inr (.inr ⟨hmem, hname⟩)

theorem looksBoolean_iff (r : Registry) (choice : ServerChoice) : LooksBoolean c.modifiers ↔
    ∀ name ∈ booleanNames, ∃ j, (clauseEntries r choice c).lookup name = some j := by
  have hkey : ∀ name ∈ booleanNames, name ∈ c.modifiers.map Modifier.name ↔
      ∃ j, (clauseEntries r choice c).lookup name = some j := by
    intro name hname
    have hfree : name ∉ clauseNames := by
      revert name
      decide
    rw [← hasKey_clauseEntries r choice hfree, Entries.hasKey, Option.isSome_iff_exists]
  exact forall₂_congr hkey

theorem readNode_clauseEntries (hnames : ∀ m ∈ c.modifiers, m.name ≠ "")
    (hlooks : ¬ LooksBoolean c.modifiers) (height : Nat) :
    readNode seeded choice (height + 1) (.object (clauseEntries r choice c)) =
      .ok (.clause (restoredClause r choice c)) := by
  have hlacks : LacksOperator (clauseEntries r choice c) := by
    rw [looksBoolean_iff r choice] at hlooks
    push Not at hlooks
    obtain ⟨name, hname, hnone⟩ := hlooks
    exact ⟨name, hname, Option.eq_none_iff_forall_ne_some.2 hnone⟩
  rw [readNode_clause height (form?_eq_clause_iff.2 ⟨hlacks, lookup_term⟩), readClause_eq hnames]
  rfl

/-- A clause whose modifiers make it look like an operator is refused: its operands are texts. -/
theorem readNode_of_looksBoolean (hlooks : LooksBoolean c.modifiers) (height : Nat) (n : Node) :
    readNode seeded choice (height + 1) (.object (clauseEntries r choice c)) ≠ .ok n := by
  have hall := (looksBoolean_iff r choice).1 hlooks
  obtain ⟨op, hop⟩ := hall "op" (by decide)
  obtain ⟨s1, hs1⟩ := hall "s1" (by decide)
  obtain ⟨s2, hs2⟩ := hall "s2" (by decide)
  -- All members of a clause are strings, and a string is no tree.
  obtain ⟨text, rfl⟩ := string_of_lookup hs1
  have htext : ∃ fault, readNode seeded choice height (.string text) = .error fault := by
    cases height <;> exact ⟨_, rfl⟩
  obtain ⟨fault, hfault⟩ := htext
  rw [readNode_operator height (form?_eq_operator_iff.2 ⟨hop, hs1, hs2⟩), hfault]
  cases readOperator (clauseEntries r choice c) <;> nofun

end Clause

section Operator
variable {op : BooleanOp} {ms : List Modifier} {s1 s2 : Json}

def booleanEntries (op : BooleanOp) (ms : List Modifier) (s1 s2 : Json) : List (String × Json) :=
  Entries.insert "s2" s2 (Entries.insert "s1" s1
    (Document.members (("op", op.keyword) :: modifierMembers booleanNames ms)))

theorem booleanEntries_eq : booleanEntries op ms s1 s2 = Entries.insertAll []
    ([("op", .string op.keyword)] ++ (modifierMembers booleanNames ms).map Json.stringMember ++
      [("s1", s1), ("s2", s2)]) := by
  rw [Entries.insertAll_append]
  rfl

theorem lookup_op : (booleanEntries op ms s1 s2).lookup "op" = some (.string op.keyword) := by
  have hfree : "op" ∉ ((modifierMembers booleanNames ms).map Json.stringMember).map Prod.fst := by
    rw [keys_stringMember, mem_keys_modifierMembers]
    exact fun hop => hop.2 (by decide)
  rw [booleanEntries_eq, Entries.insertAll_append, Entries.lookup_insertAll_of_not_mem (by simp),
    Entries.insertAll_append, Entries.lookup_insertAll_of_not_mem hfree]
  rfl

theorem lookup_s1 : (booleanEntries op ms s1 s2).lookup "s1" = some s1 := by
  rw [booleanEntries, Entries.lookup_insert_of_ne (by decide), Entries.lookup_insert_self]

theorem lookup_s2 : (booleanEntries op ms s1 s2).lookup "s2" = some s2 :=
  Entries.lookup_insert_self _ _ _

/-- The object of an operator is read operand by operand. -/
theorem readNode_booleanEntries (hnames : ∀ m ∈ ms, m.name ≠ "") (height : Nat) :
    readNode seeded choice (height + 1) (.object (booleanEntries op ms s1 s2)) =
      (readNode seeded choice height s1).bind fun left =>
        (readNode seeded choice height s2).map fun right =>
          .boolean op (restoredModifiers booleanNames ms) left right := by
  have hop : readOperator (booleanEntries op ms s1 s2) = .ok op := by
    have htext : memberText (booleanEntries op ms s1 s2) "op" = .ok op.keyword := by
      rw [memberText, lookup_op]
      rfl
    have hkeyword := BooleanOp.ofKeyword?_keyword op
    simp only [readOperator, htext, bind, Except.bind, hkeyword]
    rfl
  have hmodifiers : readModifiers booleanNames (booleanEntries op ms s1 s2) =
      .ok (restoredModifiers booleanNames ms) := by
    rw [booleanEntries_eq]
    apply readModifiers_eq hnames
    · simp [booleanNames]
    · simp [booleanNames]
  rw [readNode_operator height (form?_eq_operator_iff.2 ⟨lookup_op, lookup_s1, lookup_s2⟩), hop,
    hmodifiers]
  cases readNode seeded choice height s1 with
  | error fault => rfl
  | ok left => cases readNode seeded choice height s2 <;> rfl

end Operator

theorem json_clause (c : Clause) :
    (Document.ofNode r choice (.clause c)).json = .object (clauseEntries r choice c) := rfl

theorem json_boolean (op : BooleanOp) (ms : List Modifier) (left right : Node) :
    (Document.ofNode r choice (.boolean op ms left right)).json =
      .object (booleanEntries op ms (Document.ofNode r choice left).json
        (Document.ofNode r choice right).json) := rfl

/-- The object of a tree is read as the tree that is left of it, unless a clause looks like an
operator. -/
theorem readNode_json_iff {n : Node} (hn : Named n) {height : Nat} (h : n.height ≤ height)
    {n' : Node} : readNode seeded choice height (Document.ofNode r choice n).json = .ok n' ↔
      ShowsClauses n ∧ n' = restoredNode r choice n := by
  induction n generalizing height n' with
  | clause c =>
    obtain ⟨room, rfl⟩ : ∃ room, height = room + 1 := Nat.exists_eq_add_of_le' h
    rw [json_clause]
    by_cases hlooks : LooksBoolean c.modifiers
    · exact iff_of_false (readNode_of_looksBoolean hlooks room n') fun hs => hs.1 hlooks
    · rw [readNode_clauseEntries hn hlooks]
      constructor
      · intro he
        exact ⟨hlooks, (Except.ok.inj he).symm⟩
      · rintro ⟨-, rfl⟩
        rfl
  | boolean op ms left right ihl ihr =>
    obtain ⟨room, rfl⟩ : ∃ room, height = room + 1 :=
      Nat.exists_eq_add_of_le' (Nat.le_of_add_right_le h)
    obtain ⟨hms, hnl, hnr⟩ := hn
    rw [Node.height] at h
    have hleft {left' : Node} :
        readNode seeded choice room (Document.ofNode r choice left).json = .ok left' ↔
          ShowsClauses left ∧ left' = restoredNode r choice left := ihl hnl (by omega)
    have hright {right' : Node} :
        readNode seeded choice room (Document.ofNode r choice right).json = .ok right' ↔
          ShowsClauses right ∧ right' = restoredNode r choice right := ihr hnr (by omega)
    rw [json_boolean, readNode_booleanEntries hms]
    constructor
    · intro he
      obtain ⟨left', hl, hmap⟩ := bind_eq_ok_iff.1 he
      cases hr : readNode seeded choice room (Document.ofNode r choice right).json with
      | error fault => rw [hr] at hmap; cases hmap
      | ok right' =>
        rw [hr] at hmap
        obtain ⟨hsl, rfl⟩ := hleft.1 hl
        obtain ⟨hsr, rfl⟩ := hright.1 hr
        exact ⟨⟨trivial, hsl, hsr⟩, (Except.ok.inj hmap).symm⟩
    · rintro ⟨⟨-, hsl, hsr⟩, rfl⟩
      rw [hleft.2 ⟨hsl, rfl⟩, hright.2 ⟨hsr, rfl⟩]
      rfl

theorem height_ofNode (n : Node) : (Document.ofNode r choice n).height = n.height := by
  induction n with
  | clause c => rfl
  | boolean op ms left right ihl ihr => rw [Document.ofNode, Document.height, ihl, ihr, Node.height]

theorem filled_ofNode (n : Node) : (Document.ofNode r choice n).Filled := by
  induction n with
  | clause c => exact List.cons_ne_nil _ _
  | boolean op ms left right ihl ihr => exact ⟨List.cons_ne_nil _ _, ihl, ihr⟩

theorem isBlankText_write (l : Layout) (n : Nat) (d : Document) :
    Text.isBlankText (l.write n d) = false := by
  have hopen : '\x7b' ∈ (l.write n d).toList := by
    cases d <;> simp [Layout.write]
  exact Text.isBlankText_of_mem hopen (by decide)

/-- The query that is read back from FQ, if any is. -/
theorem read_write_eq_restored_iff {q q' : Query} (hn : Named q.root)
    (h : q.root.height ≤ maxJsonNesting) {l : Layout} (hl : l.IsBlank) :
    read q.choice (write l q) = .ok q' ↔ ShowsClauses q.root ∧
      q' = ⟨none, restoredNode q.registry q.choice q.root, seeded, q.choice⟩ := by
  have hjson : Json.read? (some maxJsonNesting) .replaced (write l q) =
      some (Document.ofNode q.registry q.choice q.root).json :=
    Layout.read?_write hl (filled_ofNode q.root) (by rwa [height_ofNode])
  have hheight : q.root.height ≤ maxHeight := Nat.le_trans h (by decide)
  rw [read, show Text.isBlankText (write l q) = false from isBlankText_write l 0 _,
    if_neg Bool.false_ne_true, hjson]
  change (readNode seeded q.choice maxHeight _).bind _ = _ ↔ _
  constructor
  · intro he
    obtain ⟨n', hn', hret⟩ := bind_eq_ok_iff.1 he
    obtain ⟨hs, rfl⟩ := (readNode_json_iff hn hheight).1 hn'
    exact ⟨hs, (Except.ok.inj hret).symm⟩
  · rintro ⟨hs, rfl⟩
    rw [(readNode_json_iff hn hheight).2 ⟨hs, rfl⟩]
    rfl

end ContextQuery.Fq
