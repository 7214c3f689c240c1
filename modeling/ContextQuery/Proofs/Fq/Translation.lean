import ContextQuery.Proofs.Fq.Restore
import ContextQuery.Proofs.Json.Nesting

namespace ContextQuery.Fq
open Cql Registry

def IsEquality (m : Modifier) : Prop := m.name ≠ "" ∧ m.relation = "="

theorem IsEquality.writable {m : Modifier} (h : IsEquality m) : m.Writable := by
  refine ⟨h.1, .inr ?_⟩
  rw [h.2]
  decide

section Reading
variable {r : Registry} {choice : ServerChoice} {members : List (String × Json)}

theorem readModifier_inv {e : String × Json} {m : Modifier} (h : readModifier e = .ok m) :
    e.1 ≠ "" ∧ ∃ value, m = ⟨e.1, "=", value⟩ := by
  unfold readModifier at h
  split at h
  · cases h
  · next hname =>
    obtain ⟨value, -, hret⟩ := bind_eq_ok_iff.1 h
    cases hret
    exact ⟨fun he => hname (String.isEmpty_iff.2 he), value, rfl⟩

theorem isEquality_of_readModifiers {taken : List String} {ms : List Modifier}
    (h : readModifiers taken members = .ok ms) : ∀ m ∈ ms, IsEquality m := by
  intro m hm
  obtain ⟨e, -, he⟩ := exists_mem_of_forall₂ (mapM_eq_ok_iff.1 h) m hm
  obtain ⟨hname, value, rfl⟩ := readModifier_inv he
  exact ⟨hname, rfl⟩

/-- A clause is resolved with the modifiers that its members are. -/
theorem resolve_of_readClause {c : Clause} (h : readClause r choice members = .ok c) :
    ∃ field relation ms term, c = .resolve r field relation ms term ∧
      readModifiers clauseNames members = .ok ms := by
  obtain ⟨term, -, h⟩ := bind_eq_ok_iff.1 h
  obtain ⟨field, -, h⟩ := bind_eq_ok_iff.1 h
  obtain ⟨relation, -, h⟩ := bind_eq_ok_iff.1 h
  obtain ⟨ms, hms, hret⟩ := bind_eq_ok_iff.1 h
  cases hret
  exact ⟨_, _, ms, term, rfl, hms⟩

theorem isEquality_of_readClause {c : Clause} (h : readClause r choice members = .ok c) :
    ∀ m ∈ c.modifiers, IsEquality m := by
  obtain ⟨field, relation, ms, term, rfl, hms⟩ := resolve_of_readClause h
  exact isEquality_of_readModifiers hms

inductive Represents (r : Registry) (choice : ServerChoice) (height : Nat)
    (members : List (String × Json)) : Node → Prop
  | clause {c : Clause} (h : readClause r choice members = .ok c) :
    Represents r choice height members (.clause c)
  | boolean {op : BooleanOp} {ms : List Modifier} {left right : Node} {s1 s2 : Json}
    (hs1 : ("s1", s1) ∈ members) (hs2 : ("s2", s2) ∈ members)
    (hms : readModifiers booleanNames members = .ok ms)
    (hl : readNode r choice height s1 = .ok left)
    (hr : readNode r choice height s2 = .ok right) :
    Represents r choice height members (.boolean op ms left right)

/-- Only an object is read as a tree. -/
theorem represents_of_readNode {height : Nat} {j : Json} {n : Node}
    (h : readNode r choice height j = .ok n) :
    ∃ room members, height = room + 1 ∧ j = .object members ∧
      Represents r choice room members n := by
  cases height with
  | zero => cases h
  | succ room =>
    cases j with
    | object members =>
      refine ⟨room, members, rfl, rfl, ?_⟩
      cases hform : form? members with
      | none =>
        rw [readNode_formless room (isFormless_object_iff.2 hform)] at h
        cases h
      | some form =>
        cases form with
        | operator op s1 s2 =>
          obtain ⟨-, hs1, hs2⟩ := form?_eq_operator_iff.1 hform
          rw [readNode_operator room hform] at h
          obtain ⟨op, -, h⟩ := bind_eq_ok_iff.1 h
          obtain ⟨left, hl, h⟩ := bind_eq_ok_iff.1 h
          obtain ⟨right, hr, h⟩ := bind_eq_ok_iff.1 h
          obtain ⟨ms, hms, hret⟩ := bind_eq_ok_iff.1 h
          cases hret
          exact .boolean (Entries.mem_of_lookup hs1) (Entries.mem_of_lookup hs2) hms hl hr
        | clause term =>
          rw [readNode_clause room hform] at h
          obtain ⟨c, hc, hret⟩ := bind_eq_ok_iff.1 h
          cases hret
          exact .clause hc
    | _ => cases h

/-- Each level of the tree takes a level of the JSON value. -/
theorem height_le_of_readNode {height limit : Nat} {j : Json} {n : Node}
    (h : readNode r choice height j = .ok n) (hj : j.FitsIn limit) : n.height ≤ limit := by
  induction n generalizing height limit j with
  | clause c =>
    obtain ⟨room, members, -, rfl, -⟩ := represents_of_readNode h
    cases limit with
    | zero => exact absurd hj id
    | succ limit => exact Nat.le_add_left 1 limit
  | boolean op ms left right ihl ihr =>
    obtain ⟨room, members, -, rfl, hn⟩ := represents_of_readNode h
    cases limit with
    | zero => exact absurd hj id
    | succ limit =>
      cases hn with
      | boolean hs1 hs2 _ hl hr =>
        -- The operands are members of the object, so they have one level less.
        have hleft := ihl hl (hj _ hs1)
        have hright := ihr hr (hj _ hs2)
        rw [Node.height]
        omega

def HasEqualities : Node → Prop :=
  Node.Each (fun c => ∀ m ∈ c.modifiers, IsEquality m) fun ms => ∀ m ∈ ms, IsEquality m

/-- What holds of all that is read from a good object holds everywhere in a tree that is read from a
good value, if the members of a good object are good. -/
theorem each_of_readNode (good : Json → Prop) {p : Clause → Prop} {q : List Modifier → Prop}
    (hmember : ∀ members, good (.object members) → ∀ e ∈ members, good e.2)
    (hclause : ∀ members c, good (.object members) → readClause r choice members = .ok c → p c)
    (hoperator : ∀ members ms, good (.object members) →
      readModifiers booleanNames members = .ok ms → q ms)
    {height : Nat} {j : Json} {n : Node} (h : readNode r choice height j = .ok n) (hj : good j) :
    n.Each p q := by
  induction n generalizing height j with
  | clause c =>
    obtain ⟨room, members, -, rfl, hn⟩ := represents_of_readNode h
    cases hn with
    | clause hc => exact hclause members c hj hc
  | boolean op ms left right ihl ihr =>
    obtain ⟨room, members, -, rfl, hn⟩ := represents_of_readNode h
    cases hn with
    | boolean hs1 hs2 hms hl hr =>
      exact ⟨hoperator members ms hj hms, ihl hl (hmember members hj _ hs1),
        ihr hr (hmember members hj _ hs2)⟩

theorem hasEqualities_of_readNode {height : Nat} {j : Json} {n : Node}
    (h : readNode r choice height j = .ok n) : HasEqualities n :=
  each_of_readNode (fun _ => True) (fun _ _ _ _ => trivial)
    (fun _ _ _ hc => isEquality_of_readClause hc) (fun _ _ _ hms => isEquality_of_readModifiers hms)
    h trivial

theorem ofJson_of_read {text : String} {q : Query} (h : read choice text = .ok q) :
    ∃ j, Json.read? (some maxJsonNesting) .replaced text = some j ∧ ofJson choice j = .ok q := by
  unfold read at h
  split at h
  · cases h
  · split at h
    · next j hj => exact ⟨j, hj, h⟩
    · cases h

theorem readNode_of_ofJson {j : Json} {q : Query} (h : ofJson choice j = .ok q) :
    ∃ root, readNode seeded choice maxHeight j = .ok root ∧ q = ⟨none, root, seeded, choice⟩ := by
  obtain ⟨root, hroot, hret⟩ := bind_eq_ok_iff.1 h
  cases hret
  exact ⟨root, hroot, rfl⟩

/-- What is known of a query that was read from FQ. -/
theorem readNode_of_read {text : String} {q : Query} (h : read choice text = .ok q) :
    ∃ j, j.FitsIn maxJsonNesting ∧ readNode seeded choice maxHeight j = .ok q.root ∧
      q.choice = choice := by
  obtain ⟨j, hj, hq⟩ := ofJson_of_read h
  obtain ⟨root, hroot, rfl⟩ := readNode_of_ofJson hq
  exact ⟨j, Json.fitsIn_of_read? hj, hroot, rfl⟩

end Reading

variable {r : Registry} {choice : ServerChoice}

/-- An index and a relation take one level of nesting more than the clause, which the parentheses
around the lowest operators make up for. -/
theorem writtenNesting_le (n : Node) : writtenNesting r choice n ≤ max 2 n.height := by
  induction n with
  | clause c =>
    rw [writtenNesting]
    split <;> omega
  | boolean op ms left right ihl ihr =>
    have hl := left.isBoolean_toNat_lt_height
    have hr := right.isBoolean_toNat_lt_height
    have hl' := left.isBoolean.toNat_le
    have hr' := right.isBoolean.toNat_le
    rw [writtenNesting, Node.height]
    omega

/-- Are the modifiers on the right those on the left, one by one, as they are read back from query
text? They are equalities again. -/
def KeepsModifiers : List Modifier → List Modifier → Prop :=
  List.Forall₂ fun m m' => m' = normalModifier m ∧ m'.relation = "="

theorem keepsModifiers_map {ms : List Modifier} (h : ∀ m ∈ ms, IsEquality m) :
    KeepsModifiers ms (ms.map normalModifier) := by
  refine List.forall₂_map_right_iff.2 (List.forall₂_same.2 fun m hm => ⟨rfl, ?_⟩)
  exact (h m hm).2

theorem modifiers_normalClause (c : Clause) :
    (normalClause r choice c).modifiers = c.modifiers.map normalModifier := by
  unfold normalClause
  split
  · next h =>
    simp only [isImplied, Bool.and_eq_true, List.isEmpty_iff] at h
    rw [h.1.1]
    rfl
  · rfl

theorem term_normalClause (c : Clause) :
    (normalClause r choice c).term = normalTerm c.term := by
  unfold normalClause
  split <;> rfl

theorem alike_normalNode {n : Node} (h : HasEqualities n) :
    n.Alike (fun c d => d.term = normalTerm c.term ∧ KeepsModifiers c.modifiers d.modifiers)
      KeepsModifiers (normalNode r choice n) := by
  induction n with
  | clause c =>
    refine .clause ⟨term_normalClause c, ?_⟩
    rw [modifiers_normalClause]
    exact keepsModifiers_map h
  | boolean op ms left right ihl ihr =>
    exact .boolean (keepsModifiers_map h.1) (ihl h.2.1) (ihr h.2.2)

/-- Whatever FQ stands for can be written as query text, which is read under the same server's
choice as a tree of the same shape, with the same operators and the same modifiers one by one. -/
theorem read_write_of_read {text : String} {q : Query} (h : read choice text = .ok q) :
    ∃ q', Cql.read choice (Cql.write q) = .ok q' ∧
      q.root.Alike (fun c d => d.term = normalTerm c.term ∧ KeepsModifiers c.modifiers d.modifiers)
        KeepsModifiers q'.root := by
  obtain ⟨j, hj, hn, rfl⟩ := readNode_of_read h
  have hequal := hasEqualities_of_readNode hn
  have hwritable : q.root.Writable :=
    Node.Each.mono hequal (fun _ hc m hm => (hc m hm).writable) fun _ hms m hm =>
      (hms m hm).writable
  have hfits : writtenNesting q.registry q.choice q.root ≤ maxNesting := by
    have hwritten : writtenNesting q.registry q.choice q.root ≤ max 2 q.root.height :=
      writtenNesting_le q.root
    have hheight := height_le_of_readNode hn hj
    simp only [maxNesting, maxJsonNesting] at hheight ⊢
    omega
  exact ⟨_, read_write_of_fits hwritable hfits, alike_normalNode hequal⟩

/-- Numbers and truth values, names that are one in lower case, and a quotation mark and a slash in
names. -/
def mixedText : String :=
  "\x7b\"op\": \"PROX\", \"s1\": \x7b\"term\": 1e3, \"AND/\": true\x7d, \"\\\"\": false, " ++
    "\"s2\": \x7b\"B\": -0, \"relation\": \"ge\", \"b\": \"\", \"term\": \"\"\x7d\x7d"

def mixedNode : Node :=
  .boolean .prox [⟨"\"", "=", "false"⟩]
    (.clause (.resolve seeded "cql.serverChoice" "scr" [⟨"AND/", "=", "true"⟩] "1000.0"))
    (.clause (.resolve seeded "cql.serverChoice" ">=" [⟨"B", "=", "-0.0"⟩, ⟨"b", "=", ""⟩] ""))

theorem read_write_of_read_mixedText : ∃ q, read .standard mixedText = .ok q ∧
    q.root = mixedNode ∧ ∃ q', Cql.read .standard (Cql.write q) = .ok q' ∧
      q.root.Alike (fun c d => d.term = normalTerm c.term ∧ KeepsModifiers c.modifiers d.modifiers)
        KeepsModifiers q'.root := by
  have hread : (read .standard mixedText).toOption.map Query.root = some mixedNode := by
    decide +kernel
  cases hq : read .standard mixedText with
  | error fault =>
    rw [hq] at hread
    cases hread
  | ok q =>
    rw [hq] at hread
    exact ⟨q, rfl, Option.some.inj hread, read_write_of_read hq⟩

end ContextQuery.Fq
