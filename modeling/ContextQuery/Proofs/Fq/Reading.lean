import ContextQuery.Fq.Reader
import ContextQuery.Proofs.Entries

namespace ContextQuery

def Json.plainText? : Json → Option String
  | .string s => some s
  | .number n => some n.text
  | .bool b => some (boolText b)
  | _ => none

namespace Fq

theorem textOf_eq (name : String) (j : Json) : textOf name j =
    match j.plainText? with
    | some text => .ok text
    | none => .error (.noText name j) := by
  cases j <;> rfl

/-- What an object is read as, with the members that decide it. -/
inductive Form
  | operator (op s1 s2 : Json)
  | clause (term : Json)

def form? (members : List (String × Json)) : Option Form :=
  match members.lookup "op", members.lookup "s1", members.lookup "s2" with
  | some op, some s1, some s2 => some (.operator op s1 s2)
  | _, _, _ => (members.lookup "term").map .clause

section Form
variable {members : List (String × Json)} {op s1 s2 term : Json}

def LacksOperator (members : List (String × Json)) : Prop :=
  ∃ name ∈ booleanNames, members.lookup name = none

theorem lacksOperator_iff : LacksOperator members ↔ ∀ op s1 s2, members.lookup "op" = some op →
    members.lookup "s1" = some s1 → members.lookup "s2" = some s2 → False := by
  simp only [LacksOperator, booleanNames, List.mem_cons, List.not_mem_nil, or_false,
    exists_eq_or_imp, exists_eq_left]
  cases members.lookup "op" <;> cases members.lookup "s1" <;> cases members.lookup "s2" <;> simp

theorem form?_eq_operator_iff : form? members = some (.operator op s1 s2) ↔
    members.lookup "op" = some op ∧ members.lookup "s1" = some s1 ∧
      members.lookup "s2" = some s2 := by
  unfold form?
  split
  · next hop hs1 hs2 => simp [hop, hs1, hs2]
  · next hlacks =>
    refine iff_of_false (fun h => ?_) fun ⟨hop, hs1, hs2⟩ => hlacks _ _ _ hop hs1 hs2
    obtain ⟨term, -, hterm⟩ := Option.map_eq_some_iff.1 h
    cases hterm

theorem form?_eq_clause_iff : form? members = some (.clause term) ↔
    LacksOperator members ∧ members.lookup "term" = some term := by
  unfold form?
  split
  · next hop hs1 hs2 =>
    exact iff_of_false nofun fun h => lacksOperator_iff.1 h.1 _ _ _ hop hs1 hs2
  · next hlacks => simp [lacksOperator_iff.2 hlacks]

theorem form?_eq_none_iff :
    form? members = none ↔ LacksOperator members ∧ members.lookup "term" = none := by
  unfold form?
  split
  · next hop hs1 hs2 =>
    exact iff_of_false nofun fun h => lacksOperator_iff.1 h.1 _ _ _ hop hs1 hs2
  · next hlacks => simp [lacksOperator_iff.2 hlacks]

/-- Is there neither an operator nor a clause in the value? -/
def IsFormless (j : Json) : Prop :=
  ∀ members, j = .object members → LacksOperator members ∧ members.lookup "term" = none

theorem isFormless_object_iff : IsFormless (.object members) ↔ form? members = none := by
  rw [form?_eq_none_iff]
  exact ⟨fun h => h members rfl, by rintro h _ ⟨⟩; exact h⟩

end Form

section Node
variable {r : Registry} {choice : ServerChoice} {members : List (String × Json)} (height : Nat)

theorem readNode_operator {op s1 s2 : Json} (h : form? members = some (.operator op s1 s2)) :
    readNode r choice (height + 1) (.object members) =
      (readOperator members).bind fun op => (readNode r choice height s1).bind fun left =>
        (readNode r choice height s2).bind fun right =>
          (readModifiers booleanNames members).bind fun ms =>
            .ok (.boolean op ms left right) := by
  obtain ⟨hop, hs1, hs2⟩ := form?_eq_operator_iff.1 h
  rw [readNode, hop, hs1, hs2]
  rfl

theorem readNode_clause {term : Json} (h : form? members = some (.clause term)) :
    readNode r choice (height + 1) (.object members) =
      (readClause r choice members).bind fun c => .ok (.clause c) := by
  obtain ⟨hlacks, hterm⟩ := form?_eq_clause_iff.1 h
  rw [readNode]
  split
  · next hop hs1 hs2 => exact (lacksOperator_iff.1 hlacks _ _ _ hop hs1 hs2).elim
  · rw [if_pos (by rw [Entries.hasKey, hterm]; rfl)]
    rfl

theorem readNode_formless {j : Json} (h : IsFormless j) :
    readNode r choice (height + 1) j = .error (.unknownNode j) := by
  cases j with
  | object members =>
    obtain ⟨hlacks, hterm⟩ := h members rfl
    rw [readNode]
    split
    · next hop hs1 hs2 => exact (lacksOperator_iff.1 hlacks _ _ _ hop hs1 hs2).elim
    · exact if_neg (by rw [Entries.hasKey, hterm]; decide)
  | _ => rfl

end Node

end Fq

end ContextQuery
