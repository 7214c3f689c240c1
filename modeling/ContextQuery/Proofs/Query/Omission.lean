import ContextQuery.Proofs.Cql.Comparator
import ContextQuery.Proofs.Cql.Stable
import ContextQuery.Proofs.Fq.Shape
import ContextQuery.Proofs.Fq.Translation
import ContextQuery.Proofs.Query.WellFormed

namespace ContextQuery

/-- Are index and relation what the server's choice is resolved to? The modifiers have names and do
not make the clause look like an operator, as it is with those that are read. -/
structure Clause.IsInherited (choice : ServerChoice) (c : Clause) : Prop where
  field : c.field = Registry.seeded.split choice.field
  relation : c.relation = Registry.seeded.splitRelation choice.relation
  named : ∀ m ∈ c.modifiers, m.name ≠ ""
  shown : ¬ Fq.LooksBoolean c.modifiers

def Query.alone (q : Query) (c : Clause) : Query := { q with root := .clause c }

/-- Do the writers leave index and relation of the clause out, and do these come back when what is
written for the clause is read by itself? -/
structure Query.LeavesOut (q : Query) (choice : ServerChoice) (c : Clause) : Prop where
  members : ∀ m ∈ Fq.clauseMembers q.registry q.choice c, m.1 ≠ "field" ∧ m.1 ≠ "relation"
  text : Cql.writeClause q.registry q.choice c = Cql.quote c.term ↔ c.modifiers = []
  fromFq : ∀ l, Fq.read choice (Fq.write l (q.alone c)) =
    .ok ⟨none, .clause { c with modifiers := Fq.restoredModifiers Fq.clauseNames c.modifiers },
      .seeded, choice⟩
  fromText : c.modifiers = [] → Cql.read choice (Cql.write (q.alone c)) =
    .ok ⟨some (Cql.quote c.term), .clause { c with term := Cql.normalTerm c.term }, .seeded, choice⟩

namespace Clause.IsInherited
variable {choice : ServerChoice} {c : Clause}

theorem hasChosenField (h : c.IsInherited choice) : c.hasChosenField .seeded choice = true := by
  rw [Clause.hasChosenField, h.field]
  exact Registry.isChosen_split_seeded choice.field

theorem hasChosenRelation (h : c.IsInherited choice) :
    c.hasChosenRelation .seeded choice = true := by
  rw [Clause.hasChosenRelation, h.relation]
  exact Registry.isChosen_splitRelation_seeded choice.relation

theorem clauseMembers_eq (h : c.IsInherited choice) : Fq.clauseMembers .seeded choice c =
    ("term", c.term) :: Fq.modifierMembers Fq.clauseNames c.modifiers := by
  simp only [Fq.clauseMembers, h.hasChosenField, h.hasChosenRelation, Bool.or_true, ↓reduceIte,
    List.nil_append]

theorem restoredClause_eq (h : c.IsInherited choice) : Fq.restoredClause .seeded choice c =
    { c with modifiers := Fq.restoredModifiers Fq.clauseNames c.modifiers } := by
  simp only [Fq.restoredClause, Fq.leavesOutField, Fq.leavesOutRelation, h.hasChosenField,
    h.hasChosenRelation, Bool.or_true, ↓reduceIte, Clause.resolve, ← h.field, ← h.relation]

theorem isImplied (h : c.IsInherited choice) (hms : c.modifiers = []) :
    Cql.isImplied .seeded choice c = true := by
  rw [Cql.isImplied, hms, h.hasChosenField, h.hasChosenRelation]
  rfl

theorem writeClause_eq (h : c.IsInherited choice) (hms : c.modifiers = []) :
    Cql.writeClause .seeded choice c = Cql.quote c.term := by
  rw [Cql.writeClause, if_pos (h.isImplied hms), String.empty_append]

theorem writeClause_eq_iff (h : c.IsInherited choice) :
    Cql.writeClause .seeded choice c = Cql.quote c.term ↔ c.modifiers = [] := by
  refine ⟨fun hwritten => ?_, h.writeClause_eq⟩
  by_contra hms
  have hnamed : Cql.isImplied .seeded choice c = false := by
    rw [Cql.isImplied, List.isEmpty_eq_false_iff.2 hms]
    rfl
  have hlength := congrArg (fun s => s.toList.length) hwritten
  simp only [Cql.writeClause, hnamed, Bool.false_eq_true, ↓reduceIte, String.toList_append,
    List.length_append] at hlength
  -- At least a blank stands in front of the term.
  have hblank : " ".toList.length = 1 := rfl
  omega

theorem normalClause_eq (h : c.IsInherited choice) (hms : c.modifiers = []) :
    Cql.normalClause .seeded choice c = { c with term := Cql.normalTerm c.term } := by
  simp only [Cql.normalClause, h.isImplied hms, ↓reduceIte, Clause.resolve, ← h.field, ← h.relation,
    ← hms]

variable {q : Query} (hregistry : q.registry = .seeded) (hchoice : q.choice = choice)
include hregistry hchoice

/-- A clause has one line, so any layout writes it like the standard one. -/
theorem read_write_alone (h : c.IsInherited choice) (l : Fq.Layout) :
    Fq.read choice (Fq.write l (q.alone c)) =
      .ok ⟨none, .clause { c with modifiers := Fq.restoredModifiers Fq.clauseNames c.modifiers },
        .seeded, choice⟩ := by
  have hlayout : Fq.write l (q.alone c) = Fq.write .standard (q.alone c) := rfl
  have hheight : (q.alone c).root.height ≤ maxJsonNesting := by
    change 1 ≤ maxJsonNesting
    decide
  have hread := (Fq.read_write_eq_restored_iff (q := q.alone c) h.named hheight
    Fq.Layout.isBlank_standard).2 ⟨h.shown, rfl⟩
  change Fq.read q.choice _ = .ok ⟨none, .clause (Fq.restoredClause q.registry q.choice c), .seeded,
    q.choice⟩ at hread
  rwa [hregistry, hchoice, h.restoredClause_eq, ← hlayout] at hread

theorem read_writeText_alone (h : c.IsInherited choice) (hms : c.modifiers = []) :
    Cql.read choice (Cql.write (q.alone c)) =
      .ok ⟨some (Cql.quote c.term), .clause { c with term := Cql.normalTerm c.term }, .seeded,
        choice⟩ := by
  have hwritable : (q.alone c).root.Writable := by
    change ∀ m ∈ c.modifiers, m.Writable
    rw [hms]
    exact nofun
  have hfits : Cql.writtenNesting q.registry q.choice (q.alone c).root ≤ maxNesting := by
    change Cql.writtenNesting q.registry q.choice (.clause c) ≤ maxNesting
    rw [hregistry, hchoice, Cql.writtenNesting, if_pos (h.isImplied hms)]
    decide
  have hwritten : Cql.write (q.alone c) = Cql.quote c.term := by
    change Cql.writeClause q.registry q.choice c = _
    rw [hregistry, hchoice, h.writeClause_eq hms]
  have hread := Cql.read_write_of_fits hwritable hfits
  change Cql.read q.choice _ = .ok ⟨_, .clause (Cql.normalClause q.registry q.choice c), .seeded,
    q.choice⟩ at hread
  rw [hwritten] at hread ⊢
  rwa [hregistry, hchoice, h.normalClause_eq hms] at hread

/-- What is inherited in the seeded registry is left out. -/
theorem leavesOut (h : c.IsInherited choice) : q.LeavesOut choice c where
  members m hm := by
    rw [hregistry, hchoice, h.clauseMembers_eq] at hm
    rcases List.mem_cons.1 hm with rfl | hm
    · exact ⟨by simp, by simp⟩
    · have hfree : m.1 ∉ Fq.clauseNames := Fq.not_mem_of_mem_modifierMembers hm
      simp only [Fq.clauseNames, List.mem_cons, not_or] at hfree
      exact ⟨hfree.2.1, hfree.2.2.1⟩
  text := by rw [hregistry, hchoice, h.writeClause_eq_iff]
  fromFq := h.read_write_alone hregistry hchoice
  fromText := h.read_writeText_alone hregistry hchoice

end Clause.IsInherited

section QueryText
open Cql
variable {choice : ServerChoice}

/-- A clause without a token for its relation is made of the scope around the outline. -/
theorem Cql.Outline.resolve_of_mem_clauses {registry : Token → Registry} {o : Outline}
    {scope : Scope} {inForce : Option Token} {c : Clause}
    (h : (none, c) ∈ o.clauses registry scope inForce) : inForce = none ∧
      ∃ t, c = .resolve (registry t) scope.field scope.relation scope.modifiers t.lower := by
  induction o generalizing scope inForce with
  | term t =>
    obtain ⟨hnone, rfl⟩ := Prod.mk.inj (List.mem_singleton.1 h)
    exact ⟨hnone.symm, t, rfl⟩
  | indexed index relation ms inner ih => exact nomatch (ih h).1
  | declared mark d inner ih => exact ih h
  | boolean op ms left right ihl ihr => exact (List.mem_append.1 h).elim ihl ihr

theorem isInherited_of_mem_resolvedClauses {o : Outline} {c : Clause} (hd : o.declarations = [])
    (h : (none, c) ∈ o.resolvedClauses choice) : c.modifiers = [] ∧ c.IsInherited choice := by
  obtain ⟨-, t, rfl⟩ := Outline.resolve_of_mem_clauses h
  have hlog : o.log = [] := List.map_eq_nil_iff.1 hd
  rw [hlog]
  have hplain : ¬ Fq.LooksBoolean [] := by decide
  exact ⟨rfl, rfl, rfl, nofun, hplain⟩

end QueryText

section Fq
open Fq
variable {choice : ServerChoice}

/-- Is the clause read from an object in the value that has neither an index nor a relation? -/
inductive Fq.Inherits : Json → Node → Clause → Prop
  | clause {members : List (String × Json)} {term : Json} {c : Clause}
    (form : form? members = some (.clause term)) (field : Entries.hasKey members "field" = false)
    (relation : Entries.hasKey members "relation" = false) :
    Inherits (.object members) (.clause c) c
  | first {members : List (String × Json)} {op s1 s2 : Json} {o : BooleanOp} {ms : List Modifier}
    {left right : Node} {c : Clause} (form : form? members = some (.operator op s1 s2))
    (inherits : Inherits s1 left c) : Inherits (.object members) (.boolean o ms left right) c
  | second {members : List (String × Json)} {op s1 s2 : Json} {o : BooleanOp} {ms : List Modifier}
    {left right : Node} {c : Clause} (form : form? members = some (.operator op s1 s2))
    (inherits : Inherits s2 right c) : Inherits (.object members) (.boolean o ms left right) c

/-- Modifiers that look like an operator come from members that are one. -/
theorem not_looksBoolean_of_readModifiers {members : List (String × Json)} {ms : List Modifier}
    (hlacks : LacksOperator members) (h : readModifiers clauseNames members = .ok ms) :
    ¬ LooksBoolean ms := by
  obtain ⟨name, hname, hnone⟩ := hlacks
  intro hlooks
  have hmem := hlooks name hname
  rw [← names_of_readModifiers h] at hmem
  have hkey := (List.filter_sublist.map Prod.fst).subset hmem
  rw [← Entries.hasKey_iff, Entries.hasKey, hnone] at hkey
  cases hkey

theorem isInherited_of_readClause {members : List (String × Json)} {c : Clause}
    (hfield : Entries.hasKey members "field" = false)
    (hrelation : Entries.hasKey members "relation" = false) (hlacks : LacksOperator members)
    (h : readClause .seeded choice members = .ok c) : c.IsInherited choice := by
  obtain ⟨term, -, h⟩ := bind_eq_ok_iff.1 h
  obtain ⟨field, hf, h⟩ := bind_eq_ok_iff.1 h
  obtain ⟨relation, hr, h⟩ := bind_eq_ok_iff.1 h
  obtain ⟨ms, hms, hret⟩ := bind_eq_ok_iff.1 h
  rw [memberTextOr, hfield] at hf
  rw [memberTextOr, hrelation] at hr
  rw [hrelation] at hret
  cases hf
  cases hr
  cases hret
  exact ⟨rfl, rfl, fun m hm => (isEquality_of_readModifiers hms m hm).1,
    not_looksBoolean_of_readModifiers hlacks hms⟩

/-- An object with the members of an operator is read operand by operand. -/
theorem operands_of_readNode {height : Nat} {members : List (String × Json)} {op s1 s2 : Json}
    {o : BooleanOp} {ms : List Modifier} {left right : Node}
    (form : form? members = some (.operator op s1 s2))
    (h : readNode .seeded choice height (.object members) = .ok (.boolean o ms left right)) :
    ∃ room, readNode .seeded choice room s1 = .ok left ∧
      readNode .seeded choice room s2 = .ok right := by
  cases height with
  | zero => cases h
  | succ room =>
    rw [readNode_operator room form] at h
    obtain ⟨op, -, h⟩ := bind_eq_ok_iff.1 h
    obtain ⟨left, hl, h⟩ := bind_eq_ok_iff.1 h
    obtain ⟨right, hr, h⟩ := bind_eq_ok_iff.1 h
    obtain ⟨ms, -, hret⟩ := bind_eq_ok_iff.1 h
    cases hret
    exact ⟨room, hl, hr⟩

theorem isInherited_of_readNode {j : Json} {n : Node} {c : Clause} (h : Inherits j n c)
    {height : Nat} (hn : readNode .seeded choice height j = .ok n) : c.IsInherited choice := by
  induction h generalizing height with
  | clause form field relation =>
    cases height with
    | zero => cases hn
    | succ room =>
      rw [readNode_clause room form] at hn
      obtain ⟨c, hc, hret⟩ := bind_eq_ok_iff.1 hn
      cases hret
      exact isInherited_of_readClause field relation (form?_eq_clause_iff.1 form).1 hc
  | first form _ ih =>
    obtain ⟨room, hleft, -⟩ := operands_of_readNode form hn
    exact ih hleft
  | second form _ ih =>
    obtain ⟨room, -, hright⟩ := operands_of_readNode form hn
    exact ih hright

theorem leavesOut_of_ofJson {j : Json} {q : Query} (h : ofJson choice j = .ok q) {c : Clause}
    (hc : Inherits j q.root c) : q.LeavesOut choice c := by
  obtain ⟨root, hroot, rfl⟩ := readNode_of_ofJson h
  exact (isInherited_of_readNode hc hroot).leavesOut rfl rfl

end Fq

/-- Whatever the server chooses, a clause that has both index and relation from the choice is
written without them, and what is written for it is read as the same index and relation. Query text
without declarations has such a clause as a term that stands alone, and FQ as an object with
neither. -/
theorem inherited_left_out (choice : ServerChoice) :
    (∀ text q, Cql.read choice text = .ok q → ∃ ts p o,
      Cql.tokenize text = .ok (ts ++ [.endOfText p]) ∧
        (∀ o', Cql.Outlines .query ts o' [] ↔ o' = o) ∧
        (o.resolvedClauses choice).map Prod.snd = q.root.clauses ∧
        (o.declarations = [] → ∀ c, (none, c) ∈ o.resolvedClauses choice →
          c.modifiers = [] ∧ q.LeavesOut choice c)) ∧
    (∀ j q, Fq.ofJson choice j = .ok q → ∀ c, Fq.Inherits j q.root c → q.LeavesOut choice c) ∧
    ∀ text q, Fq.read choice text = .ok q →
      ∃ j, Json.read? (some maxJsonNesting) .replaced text = some j ∧
        ∀ c, Fq.Inherits j q.root c → q.LeavesOut choice c := by
  refine ⟨fun text q hq => ?_, fun j q hq c hc => leavesOut_of_ofJson hq hc, fun text q hq => ?_⟩
  · obtain ⟨ts, p, o, ht, ho, hregistry, hroot⟩ := Cql.exists_outline_of_read hq
    refine ⟨ts, p, o, ht, ho.eq_iff, ?_, fun hd c hc => ?_⟩
    · rw [hroot]
      exact o.map_snd_clauses _ _ _
    · obtain ⟨hms, hinherited⟩ := isInherited_of_mem_resolvedClauses hd hc
      have hseeded : q.registry = .seeded := by
        rw [hregistry, hd]
        rfl
      exact ⟨hms, hinherited.leavesOut hseeded (Fq.named_of_read hq).1⟩
  · obtain ⟨j, hj, hread⟩ := Fq.ofJson_of_read hq
    exact ⟨j, hj, fun c hc => leavesOut_of_ofJson hread hc⟩

/-- Both with a known prefix in capitals, and another full stop in the index. -/
def dottedChoice : ServerChoice := ⟨"DC.Ti.tle", "CQL.x"⟩

def dottedClause (ms : List Modifier) (term : String) : Clause :=
  ⟨⟨"Ti.tle", some "info:srw/cql-context-set/1/dc-v1.1"⟩,
    ⟨"x", some "info:srw/cql-context-set/1/cql-v1.2"⟩, ms, term⟩

def openText : String := "fish or title = sea"

def openOutline : Cql.Outline :=
  .boolean .or [] (.term ⟨.bareword, "fish", ⟨1, 1, 0⟩, 4⟩)
    (.indexed ⟨.bareword, "title", ⟨1, 9, 8⟩, 13⟩ ⟨.comparator, "=", ⟨1, 15, 14⟩, 15⟩ []
      (.term ⟨.bareword, "sea", ⟨1, 17, 16⟩, 19⟩))

theorem tokenize_openText : Cql.tokenize openText = .ok ([⟨.bareword, "fish", ⟨1, 1, 0⟩, 4⟩,
    ⟨.bareword, "or", ⟨1, 6, 5⟩, 7⟩, ⟨.bareword, "title", ⟨1, 9, 8⟩, 13⟩,
    ⟨.comparator, "=", ⟨1, 15, 14⟩, 15⟩, ⟨.bareword, "sea", ⟨1, 17, 16⟩, 19⟩] ++
    [.endOfText ⟨1, 20, 19⟩]) := by
  decide +kernel

def openMembers : List (String × Json) := [("term", .string "fish"), ("stem", .string "true")]

def openJson : Json :=
  .object [("op", .string "not"), ("s1", .object [("term", .string "sea"), ("field", .string "x")]),
    ("s2", .object openMembers)]

def openDocument : Fq.Document := .clause [("term", "fish"), ("stem", "true")]

def openFqText : String := "\x7b\"term\": \"fish\", \"stem\": \"true\"\x7d"

theorem read?_openFqText :
    Json.read? (some maxJsonNesting) .replaced openFqText = some (.object openMembers) := by
  have hwritten : openFqText = Fq.Layout.standard.write 0 openDocument := by decide +kernel
  have hfilled : openDocument.Filled := List.cons_ne_nil _ _
  rw [hwritten, Fq.Layout.read?_write Fq.Layout.isBlank_standard hfilled (by decide)]
  rfl

theorem inherited_left_out_dottedChoice :
    (∃ q, Cql.read dottedChoice openText = .ok q ∧
      q.LeavesOut dottedChoice (dottedClause [] "fish")) ∧
    (∃ q, Fq.ofJson dottedChoice openJson = .ok q ∧
      q.LeavesOut dottedChoice (dottedClause [⟨"stem", "=", "true"⟩] "fish")) ∧
    ∃ q, Fq.read dottedChoice openFqText = .ok q ∧
      q.LeavesOut dottedChoice (dottedClause [⟨"stem", "=", "true"⟩] "fish") := by
  obtain ⟨htext, hjson, hfq⟩ := inherited_left_out dottedChoice
  refine ⟨?_, ?_, ?_⟩
  · obtain ⟨q, hq⟩ := exists_ok_of_isSome (x := Cql.read dottedChoice openText) (by decide +kernel)
    obtain ⟨ts, p, o, ht, hone, -, hall⟩ := htext _ _ hq
    obtain ⟨rfl, -⟩ := List.append_inj' (Except.ok.inj (tokenize_openText.symm.trans ht)) rfl
    obtain rfl : openOutline = o := (hone _).1 (.query (.term rfl (by decide))
      (.operator (by decide) (.none (by decide))
        (.indexed rfl rfl (.none (by decide)) (.term rfl nofun)) (.stop nofun)))
    exact ⟨q, hq, (hall rfl _ (by decide +kernel)).2⟩
  · have hroot : (Fq.ofJson dottedChoice openJson).toOption.map Query.root =
        some (.boolean .not [] (.clause (.resolve .seeded "x" "CQL.x" [] "sea"))
          (.clause (dottedClause [⟨"stem", "=", "true"⟩] "fish"))) := by decide +kernel
    obtain ⟨q, hq⟩ := exists_ok_of_isSome (x := Fq.ofJson dottedChoice openJson) (by decide +kernel)
    rw [hq] at hroot
    refine ⟨q, hq, hjson _ _ hq _ ?_⟩
    rw [Option.some.inj hroot]
    exact .second rfl (.clause rfl rfl rfl)
  · have hroot : (Fq.read dottedChoice openFqText).toOption.map Query.root =
        some (.clause (dottedClause [⟨"stem", "=", "true"⟩] "fish")) := by decide +kernel
    obtain ⟨q, hq⟩ := exists_ok_of_isSome (x := Fq.read dottedChoice openFqText) (by decide +kernel)
    obtain ⟨j, hj, hc⟩ := hfq _ _ hq
    rw [hq] at hroot
    obtain rfl := Option.some.inj (read?_openFqText.symm.trans hj)
    refine ⟨q, hq, hc _ ?_⟩
    rw [Option.some.inj hroot]
    exact .clause rfl rfl rfl

end ContextQuery
