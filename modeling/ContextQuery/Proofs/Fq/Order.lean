import ContextQuery.Proofs.Fq.Reading
import ContextQuery.Proofs.Json.Order
import ContextQuery.Proofs.Matched

namespace ContextQuery

theorem Json.Permuted.plainText?_eq {v v' : Json} (h : v.Permuted v') :
    v.plainText? = v'.plainText? := by
  cases h <;> rfl

namespace Fq
open Json

def untakenNames (taken : List String) (members : List (String × Json)) : List String :=
  (members.map Prod.fst).filter fun name => !taken.contains name

/-- Do the modifiers of each node come in the same order in both values? -/
inductive KeepsOrder : Json → Json → Prop
  | operator {members members' : List (String × Json)} {op op' s1 s1' s2 s2' : Json}
    (form : form? members = some (.operator op s1 s2))
    (form' : form? members' = some (.operator op' s1' s2'))
    (modifiers : untakenNames booleanNames members = untakenNames booleanNames members')
    (first : KeepsOrder s1 s1') (second : KeepsOrder s2 s2') :
    KeepsOrder (.object members) (.object members')
  | clause {members members' : List (String × Json)} {term : Json}
    (form : form? members = some (.clause term))
    (modifiers : untakenNames clauseNames members = untakenNames clauseNames members') :
    KeepsOrder (.object members) (.object members')
  | formless {j j' : Json} (formless : IsFormless j) : KeepsOrder j j'

/-- Do both results have the same value, or none? -/
def SameValue {α : Type} : Except Fault α → Except Fault α → Prop := Matched (fun _ _ => True) Eq

section Members
variable {r : Registry} {choice : ServerChoice} {members members' : List (String × Json)}
  {name : String}

theorem sameValue_textOf {v v' : Json} (h : v.Permuted v') :
    SameValue (textOf name v) (textOf name v') := by
  rw [textOf_eq, textOf_eq, h.plainText?_eq]
  cases v'.plainText? with
  | none => exact .error trivial
  | some text => exact .ok rfl

theorem sameValue_readModifier {m m' : String × Json} (hname : m.1 = m'.1)
    (hvalue : m.2.Permuted m'.2) : SameValue (readModifier m) (readModifier m') := by
  rw [readModifier, readModifier, hname]
  split
  · exact .error trivial
  · exact Matched.bind_eq (sameValue_textOf hvalue) fun text => .ok rfl

theorem sameValue_readModifiers {taken : List String}
    (h : (Json.object members).Permuted (.object members'))
    (order : untakenNames taken members = untakenNames taken members') :
    SameValue (readModifiers taken members) (readModifiers taken members') := by
  cases h with
  | object _ each =>
    rw [untakenNames, untakenNames, List.filter_map, List.filter_map, ← List.forall₂_eq_eq_eq,
      List.forall₂_map_left_iff, List.forall₂_map_right_iff] at order
    refine Matched.mapM (List.forall₂_iff_get.2 ⟨order.length_eq, fun i hi hi' => ?_⟩)
    -- Modifiers in the same place have the same name, so their values are permuted.
    have hname := order.get hi hi'
    have hm := List.mem_of_mem_filter (List.get_mem _ ⟨i, hi⟩)
    have hm' := List.mem_of_mem_filter (List.get_mem _ ⟨i, hi'⟩)
    exact sameValue_readModifier hname (each _ _ _ hm (hname ▸ hm'))

section Lookup
variable (h : (Json.object members).Permuted (.object members'))
include h

theorem sameValue_memberText (name : String) :
    SameValue (memberText members name) (memberText members' name) := by
  have hlookup := h.lookup name
  rw [memberText, memberText]
  generalize members.lookup name = v?, members'.lookup name = v?' at hlookup ⊢
  cases hlookup with
  | none => exact .error trivial
  | some hv => exact sameValue_textOf hv

/-- What is missing for an operator is missing in any order. -/
theorem LacksOperator.permuted (lacks : LacksOperator members) : LacksOperator members' := by
  obtain ⟨name, hname, hlookup⟩ := lacks
  exact ⟨name, hname, (h.lookup_eq_none_iff name).1 hlookup⟩

theorem exists_form?_eq_clause {term : Json} (form : form? members = some (.clause term)) :
    ∃ term', form? members' = some (.clause term') := by
  obtain ⟨lacks, hterm⟩ := form?_eq_clause_iff.1 form
  have hsome : (members'.lookup "term").isSome = true := by
    rw [← Entries.hasKey, ← h.hasKey_eq, Entries.hasKey, hterm, Option.isSome_some]
  obtain ⟨term', hterm'⟩ := Option.isSome_iff_exists.1 hsome
  exact ⟨term', form?_eq_clause_iff.2 ⟨lacks.permuted h, hterm'⟩⟩

theorem sameValue_memberTextOr (name default : String) :
    SameValue (memberTextOr members name default) (memberTextOr members' name default) := by
  rw [memberTextOr, memberTextOr, h.hasKey_eq]
  split
  · exact sameValue_memberText h name
  · exact .ok rfl

theorem sameValue_readOperator : SameValue (readOperator members) (readOperator members') := by
  refine Matched.bind_eq (sameValue_memberText h "op") fun keyword => ?_
  split
  · exact .ok rfl
  · exact .error trivial

theorem sameValue_readClause (order : untakenNames clauseNames members =
    untakenNames clauseNames members') :
    SameValue (readClause r choice members) (readClause r choice members') := by
  refine Matched.bind_eq (sameValue_memberText h _) fun term => ?_
  refine Matched.bind_eq (sameValue_memberTextOr h _ _) fun field => ?_
  refine Matched.bind_eq (sameValue_memberTextOr h _ _) fun relation => ?_
  refine Matched.bind_eq (sameValue_readModifiers h order) fun ms => ?_
  rw [h.hasKey_eq]
  exact .ok rfl

end Lookup

end Members

section Nodes
variable {j j' : Json}

theorem IsFormless.permuted (h : IsFormless j) (permuted : j.Permuted j') : IsFormless j' := by
  rintro members' rfl
  cases permuted with
  | object names each =>
    have hpermuted := Json.Permuted.object names each
    obtain ⟨lacks, hterm⟩ := h _ rfl
    exact ⟨lacks.permuted hpermuted, (hpermuted.lookup_eq_none_iff "term").1 hterm⟩

theorem sameValue_readNode (permuted : j.Permuted j') (order : KeepsOrder j j') (r : Registry)
    (choice : ServerChoice) (height : Nat) :
    SameValue (readNode r choice height j) (readNode r choice height j') := by
  induction height generalizing j j' with
  | zero => exact .error trivial
  | succ height ih =>
    cases order with
    | @operator members members' op op' s1 s1' s2 s2' form form' modifiers first second =>
      have hs1 := permuted.lookup "s1"
      have hs2 := permuted.lookup "s2"
      rw [(form?_eq_operator_iff.1 form).2.1, (form?_eq_operator_iff.1 form').2.1] at hs1
      rw [(form?_eq_operator_iff.1 form).2.2, (form?_eq_operator_iff.1 form').2.2] at hs2
      rw [readNode_operator height form, readNode_operator height form']
      cases hs1 with
      | some hs1 =>
        cases hs2 with
        | some hs2 =>
          refine Matched.bind_eq (sameValue_readOperator permuted) fun op => ?_
          refine Matched.bind_eq (ih hs1 first) fun left => ?_
          refine Matched.bind_eq (ih hs2 second) fun right => ?_
          exact Matched.bind_eq (sameValue_readModifiers permuted modifiers) fun ms => .ok rfl
    | clause form modifiers =>
      obtain ⟨term', form'⟩ := exists_form?_eq_clause permuted form
      rw [readNode_clause height form, readNode_clause height form']
      exact Matched.bind_eq (sameValue_readClause permuted modifiers) fun c => .ok rfl
    | formless formless =>
      rw [readNode_formless height formless,
        readNode_formless height (formless.permuted permuted)]
      exact .error trivial

/-- Members of an object may come in any order, as long as the modifiers of a node keep theirs: the
one value is read if and only if the other is, and as the same query. -/
theorem ofJson_permuted (choice : ServerChoice) (permuted : j.Permuted j')
    (order : KeepsOrder j j') (q : Query) : ofJson choice j = .ok q ↔ ofJson choice j' = .ok q := by
  have hsame : SameValue (ofJson choice j) (ofJson choice j') :=
    Matched.bind_eq (sameValue_readNode permuted order _ choice _) fun root => .ok rfl
  exact hsame.eq_ok_iff q

def termFirst : Json :=
  .object [("op", .string "or"), ("s1", .object [("term", .string "a"), ("stem", .string ""),
    ("lang", .string "en")]), ("s2", .object [("term", .string "b")])]

def termLast : Json :=
  .object [("s2", .object [("term", .string "b")]), ("s1", .object [("stem", .string ""),
    ("lang", .string "en"), ("term", .string "a")]), ("op", .string "or")]

theorem ofJson_permuted_termFirst : ∃ q, ofJson .standard termFirst = .ok q ∧
    termFirst.Permuted termLast ∧ KeepsOrder termFirst termLast ∧
      ofJson .standard termLast = .ok q := by
  have hatom (s : String) : (Json.string s).Permuted (.string s) := .string s
  have hfront : [("term", Json.string "a"), ("stem", .string ""), ("lang", .string "en")].Perm
      [("stem", .string ""), ("lang", .string "en"), ("term", .string "a")] :=
    (List.perm_append_singleton _ [_, _]).symm
  have hreverse : [("op", Json.string "or"), ("s1", .object [("stem", .string ""),
      ("lang", .string "en"), ("term", .string "a")]), ("s2", .object [("term", .string "b")])].Perm
      [("s2", .object [("term", .string "b")]), ("s1", .object [("stem", .string ""),
        ("lang", .string "en"), ("term", .string "a")]), ("op", .string "or")] :=
    (List.reverse_perm _).symm
  have hpermuted : termFirst.Permuted termLast :=
    permuted_of_perm hreverse (by decide) (.cons ⟨rfl, hatom _⟩ (.cons ⟨rfl,
      permuted_of_perm hfront (by decide)
        (.cons ⟨rfl, hatom _⟩ (.cons ⟨rfl, hatom _⟩ (.cons ⟨rfl, hatom _⟩ .nil)))⟩
      (.cons ⟨rfl, permuted_self (.object (by decide) (List.forall_mem_singleton.2 (.string _)))⟩
        .nil)))
  have horder : KeepsOrder termFirst termLast :=
    .operator rfl rfl rfl (.clause rfl rfl) (.clause rfl rfl)
  exact ⟨_, rfl, hpermuted, horder, (ofJson_permuted .standard hpermuted horder _).1 rfl⟩

end Nodes

end Fq

end ContextQuery
