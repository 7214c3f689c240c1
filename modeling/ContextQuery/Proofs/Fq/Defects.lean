import ContextQuery.Diagnostic
import ContextQuery.Proofs.Fq.Reading
import ContextQuery.Proofs.Query.Node
import ContextQuery.Proofs.Text.LowerCase

namespace ContextQuery.Fq
open Text

def namesOperator (keyword : String) : Bool :=
  BooleanOp.all.any fun op => sameIgnoringCase keyword op.keyword

/-- Is each member that is not taken a modifier, with a name and with a text for its value? -/
def AreModifiers (taken : List String) (members : List (String × Json)) : Prop :=
  ∀ m ∈ members, m.1 ∉ taken → m.1 ≠ "" ∧ m.2.plainText?.isSome = true

/-- Is the value a node, with so many nodes on the way down to it, itself included? -/
inductive IsNode : Nat → Json → Prop
  | operator {depth : Nat} {members : List (String × Json)} {op s1 s2 : Json} {keyword : String}
    (room : depth ≤ maxHeight) (hop : members.lookup "op" = some op)
    (hs1 : members.lookup "s1" = some s1) (hs2 : members.lookup "s2" = some s2)
    (text : op.plainText? = some keyword) (named : namesOperator keyword = true)
    (first : IsNode (depth + 1) s1) (second : IsNode (depth + 1) s2)
    (modifiers : AreModifiers booleanNames members) : IsNode depth (.object members)
  | clause {depth : Nat} {members : List (String × Json)} {term : Json}
    (room : depth ≤ maxHeight) (lacks : LacksOperator members)
    (hterm : members.lookup "term" = some term)
    (texts : ∀ name ∈ clauseNames, ∀ v ∈ members.lookup name, v.plainText?.isSome = true)
    (modifiers : AreModifiers clauseNames members) : IsNode depth (.object members)

section Listing

def textDefects (name : String) (v : Json) : List Fault :=
  if v.plainText?.isSome then [] else [.noText name v]

def memberDefects (members : List (String × Json)) (name : String) : List Fault :=
  match members.lookup name with
  | some v => textDefects name v
  | none => []

def modifierDefects (m : String × Json) : List Fault :=
  (if m.1.isEmpty then [.unnamedModifier] else []) ++ textDefects m.1 m.2

def modifiersDefects (taken : List String) (members : List (String × Json)) : List Fault :=
  (members.filter fun m => !taken.contains m.1).flatMap modifierDefects

def keywordDefects (op : Json) : List Fault :=
  match op.plainText? with
  | some keyword => if namesOperator keyword then [] else [.unknownOperator keyword]
  | none => [.noText "op" op]

/-- All defects of a value that should be a node at this depth: those of an operator in front of
those of its first and its second operand, and then those of the modifiers. -/
def defects (depth : Nat) (j : Json) : List Fault :=
  if maxHeight < depth then [.nestedTooDeeply]
  else match j with
    | .object members =>
      match form? members with
      | some (.operator op s1 s2) =>
        keywordDefects op ++ defects (depth + 1) s1 ++ defects (depth + 1) s2 ++
          modifiersDefects booleanNames members
      | some (.clause _) =>
        clauseNames.flatMap (memberDefects members) ++ modifiersDefects clauseNames members
      | none => [.unknownNode j]
    | _ => [.unknownNode j]
termination_by maxHeight + 1 - depth

end Listing

section Free
variable {members : List (String × Json)}

theorem textDefects_eq_nil_iff {name : String} {v : Json} :
    textDefects name v = [] ↔ v.plainText?.isSome = true := by
  unfold textDefects
  cases v.plainText?.isSome <;> simp

theorem memberDefects_eq_nil_iff {name : String} : memberDefects members name = [] ↔
    ∀ v ∈ members.lookup name, v.plainText?.isSome = true := by
  unfold memberDefects
  cases members.lookup name <;> simp [textDefects_eq_nil_iff]

theorem modifiersDefects_eq_nil_iff {taken : List String} :
    modifiersDefects taken members = [] ↔ AreModifiers taken members := by
  have hmodifier (m : String × Json) : modifierDefects m = [] ↔
      m.1 ≠ "" ∧ m.2.plainText?.isSome = true := by
    simp [modifierDefects, textDefects_eq_nil_iff]
  simp [modifiersDefects, hmodifier, AreModifiers]

theorem keywordDefects_eq_nil_iff {op : Json} : keywordDefects op = [] ↔
    ∃ keyword, op.plainText? = some keyword ∧ namesOperator keyword = true := by
  unfold keywordDefects
  cases op.plainText? <;> simp

/-- The values without a defect are the nodes. -/
theorem defects_eq_nil_iff {depth : Nat} {j : Json} : defects depth j = [] ↔ IsNode depth j := by
  constructor
  · intro h
    fun_induction defects depth j with
    | case1 => cases h
    | case2 depth room members op s1 s2 hform ih1 ih2 =>
      obtain ⟨hop, hs1, hs2⟩ := form?_eq_operator_iff.1 hform
      simp only [List.append_eq_nil_iff] at h
      obtain ⟨⟨⟨hkeyword, hfirst⟩, hsecond⟩, hmodifiers⟩ := h
      obtain ⟨keyword, htext, hnamed⟩ := keywordDefects_eq_nil_iff.1 hkeyword
      exact .operator (Nat.not_lt.1 room) hop hs1 hs2 htext hnamed (ih1 hfirst) (ih2 hsecond)
        (modifiersDefects_eq_nil_iff.1 hmodifiers)
    | case3 depth room members term hform =>
      obtain ⟨hlacks, hterm⟩ := form?_eq_clause_iff.1 hform
      rw [List.append_eq_nil_iff, List.flatMap_eq_nil_iff] at h
      exact .clause (Nat.not_lt.1 room) hlacks hterm
        (fun name hname => memberDefects_eq_nil_iff.1 (h.1 name hname))
        (modifiersDefects_eq_nil_iff.1 h.2)
    | case4 => cases h
    | case5 => cases h
  · intro h
    induction h with
    | operator room hop hs1 hs2 text named _ _ modifiers ih1 ih2 =>
      rw [defects, if_neg (Nat.not_lt.2 room)]
      simp only [form?_eq_operator_iff.2 ⟨hop, hs1, hs2⟩]
      rw [ih1, ih2, keywordDefects_eq_nil_iff.2 ⟨_, text, named⟩,
        modifiersDefects_eq_nil_iff.2 modifiers]
      rfl
    | clause room lacks hterm texts modifiers =>
      rw [defects, if_neg (Nat.not_lt.2 room)]
      simp only [form?_eq_clause_iff.2 ⟨lacks, hterm⟩]
      rw [List.append_eq_nil_iff, List.flatMap_eq_nil_iff]
      exact ⟨fun name hname => memberDefects_eq_nil_iff.2 (texts name hname),
        modifiersDefects_eq_nil_iff.2 modifiers⟩

end Free

section Reports
variable {α β : Type} {x : Except Fault α} {ds es : List Fault}

/-- Is the first of the defects reported, and is there a result where there is none? -/
def Reports (x : Except Fault α) (ds : List Fault) : Prop :=
  match x with
  | .ok _ => ds = []
  | .error fault => ds.head? = some fault

theorem Reports.bind {f : α → Except Fault β} (hx : Reports x ds)
    (hf : ∀ a, x = .ok a → Reports (f a) es) : Reports (x.bind f) (ds ++ es) := by
  cases x with
  | error fault =>
    obtain ⟨rest, rfl⟩ := List.head?_eq_some_iff.1 hx
    rfl
  | ok a =>
    obtain rfl : ds = [] := hx
    exact hf a rfl

/-- A result that is only put together has no further defects. -/
theorem Reports.bind_ok {f : α → β} (hx : Reports x ds) :
    Reports (x.bind fun a => .ok (f a)) ds := by
  rw [← List.append_nil ds]
  exact hx.bind fun _ _ => rfl

theorem Reports.error_iff {fault : Fault} (h : Reports x ds) :
    x = .error fault ↔ ds.head? = some fault := by
  cases x with
  | ok a =>
    obtain rfl : ds = [] := h
    exact iff_of_false nofun nofun
  | error fault' =>
    rw [show ds.head? = some fault' from h]
    simp

theorem Reports.ok_iff (h : Reports x ds) : (∃ a, x = .ok a) ↔ ds = [] := by
  cases x with
  | ok a => exact iff_of_true ⟨a, rfl⟩ h
  | error fault =>
    refine iff_of_false nofun fun hnil => ?_
    subst hnil
    cases h

theorem reports_mapM {f : α → Except Fault β} {g : α → List Fault} {as : List α}
    (h : ∀ a ∈ as, Reports (f a) (g a)) : Reports (as.mapM f) (as.flatMap g) := by
  induction as with
  | nil => rfl
  | cons a as ih =>
    obtain ⟨ha, has⟩ := List.forall_mem_cons.1 h
    rw [List.mapM_cons, List.flatMap_cons]
    exact ha.bind fun _ _ => (ih has).bind_ok

variable {r : Registry} {choice : ServerChoice} {members : List (String × Json)}

theorem reports_textOf (name : String) (v : Json) :
    Reports (textOf name v) (textDefects name v) := by
  rw [textOf_eq, textDefects]
  cases v.plainText? <;> rfl

theorem reports_memberText {name : String} {v : Json} (h : members.lookup name = some v) :
    Reports (memberText members name) (memberDefects members name) := by
  rw [memberText, memberDefects, h]
  exact reports_textOf name v

theorem reports_memberTextOr (name default : String) :
    Reports (memberTextOr members name default) (memberDefects members name) := by
  cases h : members.lookup name with
  | none =>
    rw [memberTextOr, Entries.hasKey, memberDefects, h]
    rfl
  | some v =>
    rw [memberTextOr, if_pos (by rw [Entries.hasKey, h]; rfl)]
    exact reports_memberText h

theorem reports_readModifiers (taken : List String) (members : List (String × Json)) :
    Reports (readModifiers taken members) (modifiersDefects taken members) := by
  apply reports_mapM
  intro m _
  rw [readModifier, modifierDefects]
  split
  · rfl
  · exact (reports_textOf m.1 m.2).bind_ok

theorem reports_readClause {term : Json} (h : members.lookup "term" = some term) :
    Reports (readClause r choice members)
      (clauseNames.flatMap (memberDefects members) ++ modifiersDefects clauseNames members) := by
  rw [clauseNames, List.flatMap_cons, List.flatMap_cons, List.flatMap_cons, List.flatMap_nil,
    List.append_nil, List.append_assoc, List.append_assoc]
  exact (reports_memberText h).bind fun _ _ => (reports_memberTextOr _ _).bind fun _ _ =>
    (reports_memberTextOr _ _).bind fun _ _ => (reports_readModifiers _ _).bind_ok

theorem isSome_ofKeyword? (keyword : String) :
    (BooleanOp.ofKeyword? keyword).isSome = namesOperator keyword := by
  have hall (op : BooleanOp) :
      op.keyword.toList.all (fun c => c.toNat < 0x80 && c ≠ 'k' && c.toLower = c) = true := by
    cases op <;> decide
  have hletters (op : BooleanOp) :
      ∀ c ∈ op.keyword.toList, c.toNat < 0x80 ∧ c ≠ 'k' ∧ c.toLower = c := by
    simpa only [List.all_eq_true, Bool.and_eq_true, decide_eq_true_eq, and_assoc] using hall op
  have hnamed (op : BooleanOp) :
      (op.keyword == lowerCase keyword) = sameIgnoringCase keyword op.keyword := by
    rw [Bool.eq_iff_iff, beq_iff_eq, eq_comm]
    exact lowerCase_eq_iff (hletters op)
  rw [BooleanOp.ofKeyword?, BooleanOp.ofExactKeyword?, List.isSome_find?, namesOperator]
  simp only [hnamed]

theorem reports_readOperator {op : Json} (h : members.lookup "op" = some op) :
    Reports (readOperator members) (keywordDefects op) := by
  have htext : memberText members "op" = textOf "op" op := by rw [memberText, h]
  rw [readOperator, htext, textOf_eq, keywordDefects]
  cases op.plainText? with
  | none => rfl
  | some keyword =>
    dsimp only [bind, Except.bind]
    rw [← isSome_ofKeyword?]
    cases BooleanOp.ofKeyword? keyword <;> rfl

/-- The reader of nodes reports the first defect of the value. -/
theorem reports_readNode {room depth : Nat} (h : depth + room = maxHeight + 1) (j : Json) :
    Reports (readNode r choice room j) (defects depth j) := by
  induction room generalizing depth j with
  | zero =>
    have hdeep : maxHeight < depth := by omega
    unfold defects
    rw [if_pos hdeep]
    rfl
  | succ room ih =>
    have hroom : ¬ maxHeight < depth := by omega
    have hnext (v : Json) : Reports (readNode r choice room v) (defects (depth + 1) v) :=
      ih (by omega) v
    unfold defects
    rw [if_neg hroom]
    cases j with
    | object members =>
      dsimp only
      cases hform : form? members with
      | none =>
        rw [readNode_formless room (isFormless_object_iff.2 hform)]
        rfl
      | some form =>
        cases form with
        | operator op s1 s2 =>
          dsimp only
          rw [readNode_operator room hform, List.append_assoc, List.append_assoc]
          exact (reports_readOperator (form?_eq_operator_iff.1 hform).1).bind fun _ _ =>
            (hnext s1).bind fun _ _ => (hnext s2).bind fun _ _ =>
              (reports_readModifiers _ _).bind_ok
        | clause term =>
          rw [readNode_clause room hform]
          exact (reports_readClause (form?_eq_clause_iff.1 hform).2).bind_ok
    | _ => rfl

theorem reports_ofJson (choice : ServerChoice) (j : Json) :
    Reports (ofJson choice j) (defects 1 j) :=
  (reports_readNode (Nat.add_comm 1 maxHeight) j).bind_ok

end Reports

section Kinds
variable {fault : Fault}

/-- Is the fault one of the form, and not of the kind of a value? -/
def IsFormatFault (fault : Fault) : Prop :=
  (∀ v, fault ≠ .unknownNode v) ∧ ∃ message, fault.diagnostic = .formatError message

theorem isFormatFault_of_mem_textDefects {name : String} {v : Json}
    (h : fault ∈ textDefects name v) : IsFormatFault fault := by
  rw [textDefects, List.mem_ite_nil_left, List.mem_singleton] at h
  rw [h.2]
  exact ⟨nofun, _, rfl⟩

theorem isFormatFault_of_mem_memberDefects {members : List (String × Json)} {name : String}
    (h : fault ∈ memberDefects members name) : IsFormatFault fault := by
  rw [memberDefects] at h
  split at h
  · exact isFormatFault_of_mem_textDefects h
  · cases h

theorem isFormatFault_of_mem_modifiersDefects {taken : List String}
    {members : List (String × Json)} (h : fault ∈ modifiersDefects taken members) :
    IsFormatFault fault := by
  obtain ⟨m, -, hm⟩ := List.mem_flatMap.1 h
  rw [modifierDefects, List.mem_append, List.mem_ite_nil_right, List.mem_singleton] at hm
  obtain ⟨-, rfl⟩ | htext := hm
  · exact ⟨nofun, _, rfl⟩
  · exact isFormatFault_of_mem_textDefects htext

theorem isFormatFault_of_mem_keywordDefects {op : Json} (h : fault ∈ keywordDefects op) :
    IsFormatFault fault := by
  rw [keywordDefects] at h
  split at h
  · rw [List.mem_ite_nil_left, List.mem_singleton] at h
    rw [h.2]
    exact ⟨nofun, _, rfl⟩
  · rw [List.mem_singleton.1 h]
    exact ⟨nofun, _, rfl⟩

/-- A defect is a value of an unknown kind, at any depth, or it is one of the form. -/
theorem mem_defects {depth : Nat} {j : Json} (h : fault ∈ defects depth j) :
    (∃ v, fault = .unknownNode v ∧ IsFormless v) ∨ IsFormatFault fault := by
  fun_induction defects depth j with
  | case1 =>
    rw [List.mem_singleton.1 h]
    exact .inr ⟨nofun, _, rfl⟩
  | case2 depth room members op s1 s2 hform ih1 ih2 =>
    simp only [List.mem_append] at h
    obtain ((hkeyword | hfirst) | hsecond) | hmodifiers := h
    · exact .inr (isFormatFault_of_mem_keywordDefects hkeyword)
    · exact ih1 hfirst
    · exact ih2 hsecond
    · exact .inr (isFormatFault_of_mem_modifiersDefects hmodifiers)
  | case3 depth room members term hform =>
    obtain hmembers | hmodifiers := List.mem_append.1 h
    · obtain ⟨name, -, hname⟩ := List.mem_flatMap.1 hmembers
      exact .inr (isFormatFault_of_mem_memberDefects hname)
    · exact .inr (isFormatFault_of_mem_modifiersDefects hmodifiers)
  | case4 depth room members hform =>
    exact .inl ⟨_, List.mem_singleton.1 h, isFormless_object_iff.2 hform⟩
  | case5 depth room j hobject =>
    exact .inl ⟨_, List.mem_singleton.1 h, fun members heq => (hobject members heq).elim⟩

end Kinds

/-- What is read is what is a node, and a value that is none is refused for the first of its
defects: as a value of an unknown kind where it holds one there, and for its form otherwise. -/
theorem ofJson_reports_first (choice : ServerChoice) (j : Json) :
    ((∃ q, ofJson choice j = .ok q) ↔ IsNode 1 j) ∧
      (∀ fault, ofJson choice j = .error fault ↔ (defects 1 j).head? = some fault) ∧
      ∀ fault, ofJson choice j = .error fault →
        (∃ v, fault = .unknownNode v ∧ IsFormless v ∧
          fault.diagnostic = .unknownNodeType v.compact) ∨
        (∀ v, fault ≠ .unknownNode v) ∧ ∃ message, fault.diagnostic = .formatError message := by
  have hreports : Reports (ofJson choice j) (defects 1 j) := reports_ofJson choice j
  refine ⟨hreports.ok_iff.trans defects_eq_nil_iff, fun fault => hreports.error_iff, ?_⟩
  intro fault hfault
  obtain ⟨v, rfl, hformless⟩ | hformat :=
    mem_defects (List.mem_of_head? (hreports.error_iff.1 hfault))
  · exact .inl ⟨v, rfl, hformless, rfl⟩
  · exact .inr hformat

def operatorOverArray : Json :=
  .object [("op", .string "AND"), ("s1", .object [("term", .bool true)]), ("s2", .array [])]

theorem ofJson_reports_first_operatorOverArray :
    ofJson .standard operatorOverArray = .error (.unknownNode (.array [])) ∧
      ((∃ v, Fault.unknownNode (.array []) = .unknownNode v ∧ IsFormless v ∧
          (Fault.unknownNode (.array [])).diagnostic = .unknownNodeType v.compact) ∨
        (∀ v, Fault.unknownNode (.array []) ≠ .unknownNode v) ∧
          ∃ message, (Fault.unknownNode (.array [])).diagnostic = .formatError message) := by
  have hread : ofJson .standard operatorOverArray = .error (.unknownNode (.array [])) := by
    rw [ofJson, operatorOverArray, maxHeight, readNode_operator 1023 rfl]
    rfl
  exact ⟨hread, (ofJson_reports_first .standard operatorOverArray).2.2 _ hread⟩

end ContextQuery.Fq
