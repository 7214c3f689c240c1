import ContextQuery.Proofs.Cql.Outline
import ContextQuery.Proofs.Fq.Reading
import ContextQuery.Proofs.Matched

namespace ContextQuery

/-- Do two values agree where there is one of its own, and is each the inherited one elsewhere? -/
def SameOrInherited {α : Type} (own : Bool) (inherited inherited' x x' : α) : Prop :=
  if own then x = x' else x = inherited ∧ x' = inherited'

theorem SameOrInherited.map {α β : Type} {own : Bool} {d d' x x' : α}
    (h : SameOrInherited own d d' x x') (f : α → β) :
    SameOrInherited own (f d) (f d') (f x) (f x') := by
  cases own with
  | true => exact congrArg f h
  | false => exact h.imp (congrArg f) (congrArg f)

structure Clause.AgreeUpTo (r : Registry) (choice choice' : ServerChoice)
    (ownField ownRelation : Bool) (c c' : Clause) : Prop where
  term : c.term = c'.term
  modifiers : c.modifiers = c'.modifiers
  field : SameOrInherited ownField (r.split choice.field) (r.split choice'.field) c.field c'.field
  relation : SameOrInherited ownRelation (r.splitRelation choice.relation)
    (r.splitRelation choice'.relation) c.relation c'.relation

section QueryText
open Cql

/-- Are the trees that the outline stands for the same up to the choice that is inherited? -/
inductive Cql.Outline.AgreeUpTo (registry : Token → Registry) (choice choice' : ServerChoice) :
    Bool → Outline → Node → Node → Prop
  | term {inside : Bool} {t : Token} {c c' : Clause}
    (clause : c.AgreeUpTo (registry t) choice choice' inside inside c') :
    AgreeUpTo registry choice choice' inside (.term t) (.clause c) (.clause c')
  /-- Below an index and a relation nothing is inherited from the server. -/
  | indexed {inside : Bool} {index relation : Token} {ms : List Modifier} {o : Outline}
    {n n' : Node} (inner : AgreeUpTo registry choice choice' true o n n') :
    AgreeUpTo registry choice choice' inside (.indexed index relation ms o) n n'
  | declared {inside : Bool} {mark : Token} {d : String × String} {o : Outline} {n n' : Node}
    (inner : AgreeUpTo registry choice choice' inside o n n') :
    AgreeUpTo registry choice choice' inside (.declared mark d o) n n'
  | boolean {inside : Bool} {op : BooleanOp} {ms : List Modifier} {left right : Outline}
    {l l' r r' : Node} (hl : AgreeUpTo registry choice choice' inside left l l')
    (hr : AgreeUpTo registry choice choice' inside right r r') :
    AgreeUpTo registry choice choice' inside (.boolean op ms left right) (.boolean op ms l r)
      (.boolean op ms l' r')

/-- The scope of a term is the same on both sides, or it is the choice itself. -/
theorem agreeUpTo_node {registry : Token → Registry} {choice choice' : ServerChoice} (o : Outline)
    {inside : Bool} {scope scope' : Scope}
    (h : SameOrInherited inside (.ofChoice choice) (.ofChoice choice') scope scope') :
    o.AgreeUpTo registry choice choice' inside (o.node registry scope)
      (o.node registry scope') := by
  induction o generalizing inside scope scope' with
  | term t =>
    have hmodifiers : scope.modifiers = scope'.modifiers := by
      have hms := h.map Scope.modifiers
      cases inside with
      | true => exact hms
      | false => exact hms.1.trans hms.2.symm
    exact .term ⟨rfl, hmodifiers, h.map fun s => (registry t).split s.field,
      h.map fun s => (registry t).splitRelation s.relation⟩
  | indexed index relation ms inner ih => exact .indexed (ih rfl)
  | declared mark d inner ih => exact .declared (ih h)
  | boolean op ms left right ihl ihr => exact .boolean (ihl h) (ihr h)

/-- Has the other reader come as far, whatever its tree is? -/
def Cql.Parsed.Abreast (p q : Parsed) : Prop := ∃ node, q = { p with node := node }

section Abreast
variable {e : Ending} {cl cl' : Registry → List Token → Except Fault Parsed}

theorem abreast_chain (hcl : ∀ r ts, Matched Eq Parsed.Abreast (cl r ts) (cl' r ts))
    (left : Parsed) (node : Node) :
    Matched Eq Parsed.Abreast (chain e cl left) (chain e cl' { left with node := node }) := by
  fun_induction chain e cl left generalizing node with
  | case1 left hrest =>
    rw [chain, hrest]
    exact .ok ⟨node, by rw [hrest]⟩
  | case2 left t rest hrest hkeyword ih =>
    rw [chain, hrest]
    dsimp only
    rw [if_pos hkeyword]
    refine (Matched.self (e.view rest)).bind_eq fun _ => ?_
    refine (Matched.self (operator t)).bind_eq fun op => ?_
    refine (Matched.self (modifiers e rest)).bind_eq fun ms => ?_
    refine (hcl left.registry ms.2).bind ?_
    rintro right _ ⟨node', rfl⟩
    split
    · exact .error rfl
    · next hfits => exact ih op ms.1 right hfits _
  | case3 left t rest hrest hkeyword =>
    rw [chain, hrest]
    dsimp only
    rw [if_neg hkeyword]
    exact .ok ⟨node, by rw [hrest]⟩

theorem abreast_query (hcl : ∀ r ts, Matched Eq Parsed.Abreast (cl r ts) (cl' r ts)) (r : Registry)
    (ts : List Token) : Matched Eq Parsed.Abreast (query e cl r ts) (query e cl' r ts) := by
  refine (hcl r ts).bind ?_
  rintro first _ ⟨node, rfl⟩
  exact abreast_chain hcl first node

theorem Cql.Parsed.Abreast.close {p q : Parsed} (h : p.Abreast q) :
    Matched Eq Parsed.Abreast (p.close e) (q.close e) := by
  obtain ⟨node, rfl⟩ := h
  exact (Matched.self _).bind_eq fun _ => .ok ⟨node, rfl⟩

/-- No reader of clauses looks at its scope. -/
theorem abreast_clause (n : Nat) (scope scope' : Scope) (r : Registry) (ts : List Token) :
    Matched Eq Parsed.Abreast (clause e n scope r ts) (clause e n scope' r ts) := by
  induction n generalizing scope scope' r ts with
  | zero => cases ts <;> exact .error rfl
  | succ n ih =>
    cases ts with
    | nil => exact .error rfl
    | cons t rest =>
      -- The cases are those of the reader: a group, a word, a declaration, and anything else.
      unfold clause
      split
      · refine (Matched.self _).bind_eq fun _ => ?_
        exact (abreast_query (ih scope scope') r rest).bind fun _ _ h => h.close
      · split
        · refine (Matched.self _).bind_eq fun _ => ?_
          split
          · split
            · -- The scope of what follows is its own on both sides.
              refine (Matched.self _).bind_eq fun _ => ?_
              exact (Matched.self _).bind_eq fun ms => ih _ _ r ms.2
            · exact .ok ⟨_, rfl⟩
          · exact .ok ⟨_, rfl⟩
        · split
          · refine (Matched.self _).bind_eq fun _ => ?_
            exact (Matched.self _).bind_eq fun d => abreast_query (ih scope scope') _ d.2
          · exact .error rfl

end Abreast

section Read
variable (choice choice' : ServerChoice) (text : String)

theorem matched_read : Matched Eq (fun q q' => q'.registry = q.registry) (Cql.read choice text)
    (Cql.read choice' text) := by
  rw [Cql.read, Cql.read]
  split
  · exact .error rfl
  · refine (Matched.self _).bind_eq fun _ => ?_
    refine (abreast_query (abreast_clause _ _ _) _ _).bind ?_
    rintro parsed _ ⟨node, rfl⟩
    dsimp only
    split
    · exact .ok rfl
    · exact .error rfl

theorem agreeUpTo_read : Matched Eq (fun q q' => q'.registry = q.registry ∧ ∃ ts p o,
    tokenize text = .ok (ts ++ [.endOfText p]) ∧ (∀ o', Outlines .query ts o' [] ↔ o' = o) ∧
      o.AgreeUpTo (fun t => Registry.seeded.registerAll (declaredBefore o.log t)) choice choice'
        false q.root q'.root) (Cql.read choice text) (Cql.read choice' text) := by
  refine (matched_read choice choice' text).imp_of_ok fun q q' hq hq' hregistry => ?_
  obtain ⟨ts, p, o, ht, ho, -, hroot⟩ := exists_outline_of_read hq
  obtain ⟨ts', p', o', ht', ho', -, hroot'⟩ := exists_outline_of_read hq'
  -- There is one outline of the text, whatever is chosen.
  obtain ⟨rfl, -⟩ := List.append_inj' (Except.ok.inj (ht.symm.trans ht')) rfl
  obtain ⟨rfl, -⟩ := outlines_unique ho ho'
  refine ⟨hregistry, ts, p, o, ht, ho.eq_iff, ?_⟩
  rw [hroot, hroot']
  exact agreeUpTo_node o ⟨rfl, rfl⟩

end Read

end QueryText

section Fq
open Fq

/-- Are the trees that the value stands for the same up to the choice that is inherited? -/
inductive Fq.AgreeUpTo (choice choice' : ServerChoice) : Json → Node → Node → Prop
  | operator {members : List (String × Json)} {op s1 s2 : Json} {o : BooleanOp}
    {ms : List Modifier} {left left' right right' : Node}
    (form : form? members = some (.operator op s1 s2))
    (first : AgreeUpTo choice choice' s1 left left')
    (second : AgreeUpTo choice choice' s2 right right') :
    AgreeUpTo choice choice' (.object members) (.boolean o ms left right)
      (.boolean o ms left' right')
  | clause {members : List (String × Json)} {term : Json} {c c' : Clause}
    (form : form? members = some (.clause term))
    (clause : c.AgreeUpTo .seeded choice choice' (Entries.hasKey members "field")
      (Entries.hasKey members "relation") c') :
    AgreeUpTo choice choice' (.object members) (.clause c) (.clause c')

variable {choice choice' : ServerChoice} {members : List (String × Json)}

theorem matched_memberTextOr (name default default' : String) :
    Matched Eq (SameOrInherited (Entries.hasKey members name) default default')
      (memberTextOr members name default) (memberTextOr members name default') := by
  rw [memberTextOr, memberTextOr]
  cases Entries.hasKey members name with
  | true => exact Matched.self _
  | false => exact .ok ⟨rfl, rfl⟩

theorem agreeUpTo_readClause (r : Registry) : Matched Eq (Clause.AgreeUpTo r choice choice'
    (Entries.hasKey members "field") (Entries.hasKey members "relation"))
    (readClause r choice members) (readClause r choice' members) := by
  refine (Matched.self _).bind_eq fun term => ?_
  refine (matched_memberTextOr _ _ _).bind fun field field' hfield => ?_
  refine (matched_memberTextOr _ _ _).bind fun relation relation' hrelation => ?_
  refine (Matched.self _).bind_eq fun ms => .ok ⟨rfl, rfl, hfield.map r.split, ?_⟩
  cases hkey : Entries.hasKey members "relation" with
  | true =>
    rw [hkey] at hrelation
    exact congrArg (fun s => r.splitRelation (ofMnemonic s)) hrelation
  | false =>
    rw [hkey] at hrelation
    exact hrelation.map r.splitRelation

theorem agreeUpTo_readNode (height : Nat) (j : Json) : Matched Eq (Fq.AgreeUpTo choice choice' j)
    (readNode .seeded choice height j) (readNode .seeded choice' height j) := by
  induction height generalizing j with
  | zero => exact .error rfl
  | succ height ih =>
    cases j with
    | object members =>
      cases hform : form? members with
      | none =>
        have hformless : IsFormless (.object members) := isFormless_object_iff.2 hform
        rw [readNode_formless height hformless, readNode_formless height hformless]
        exact .error rfl
      | some form =>
        cases form with
        | operator op s1 s2 =>
          rw [readNode_operator height hform, readNode_operator height hform]
          refine (Matched.self _).bind_eq fun op => ?_
          refine (ih s1).bind fun left left' hleft => (ih s2).bind fun right right' hright => ?_
          exact (Matched.self _).bind_eq fun ms => .ok (.operator hform hleft hright)
        | clause term =>
          rw [readNode_clause height hform, readNode_clause height hform]
          exact (agreeUpTo_readClause _).bind fun c c' hc => .ok (.clause hform hc)
    | _ => exact .error rfl

theorem agreeUpTo_ofJson (choice choice' : ServerChoice) (j : Json) :
    Matched Eq (fun q q' => q'.registry = q.registry ∧ Fq.AgreeUpTo choice choice' j q.root q'.root)
      (ofJson choice j) (ofJson choice' j) :=
  (agreeUpTo_readNode _ j).bind fun _ _ hroot => .ok ⟨rfl, hroot⟩

end Fq

/-- Whatever the server chooses, a query is refused for the same fault or read with the same
registry, operators, terms and modifiers, and index and relation are those of the choice just where
the query leaves them open: both of them or none in query text, each by itself in FQ. -/
theorem choice_reaches_what_inherits (choice choice' : ServerChoice) :
    (∀ text, Matched Eq
      (fun q q' => q'.registry = q.registry ∧ ∃ ts p o,
        Cql.tokenize text = .ok (ts ++ [.endOfText p]) ∧
          (∀ o', Cql.Outlines .query ts o' [] ↔ o' = o) ∧
            o.AgreeUpTo (fun t => Registry.seeded.registerAll (Cql.declaredBefore o.log t)) choice
              choice' false q.root q'.root)
      (Cql.read choice text) (Cql.read choice' text)) ∧
    ∀ j, Matched Eq
      (fun q q' => q'.registry = q.registry ∧ Fq.AgreeUpTo choice choice' j q.root q'.root)
      (Fq.ofJson choice j) (Fq.ofJson choice' j) :=
  ⟨agreeUpTo_read choice choice', agreeUpTo_ofJson choice choice'⟩

end ContextQuery
