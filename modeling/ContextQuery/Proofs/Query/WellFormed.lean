import ContextQuery.Proofs.Cql.Origin
import ContextQuery.Proofs.Fq.Translation
import ContextQuery.Proofs.Json.Names
import ContextQuery.Proofs.Query.History

namespace ContextQuery
open Text Registry

/-- Does the context set of the name, if it has one, have a prefix? -/
def QualifiedName.IsKnown (r : Registry) (q : QualifiedName) : Prop :=
  ∀ identifier ∈ q.identifier, (r.prefixFor identifier).isSome = true

structure Clause.WellFormed (r : Registry) (c : Clause) : Prop where
  modifiers : ∀ m ∈ c.modifiers, m.Writable
  /-- Only a relation with a prefix of its own can be without a context set. -/
  relation : c.relation.identifier = none → '.' ∈ c.relation.name.toList
  knownField : c.field.IsKnown r
  knownRelation : c.relation.IsKnown r

structure Query.WellFormed (q : Query) : Prop where
  height : q.root.height ≤ maxHeight
  each : q.root.Each (·.WellFormed q.registry) fun ms => ∀ m ∈ ms, m.Writable

section Resolve
variable {r : Registry} {s identifier : String} {ds front : List (String × String)}

theorem exists_resolve_of_split (h : (r.split s).identifier = some identifier) :
    ∃ key, r.resolve key = some identifier := by
  rcases split_cases r s with hs | ⟨key, name, i, -, hr, hs⟩
  · rw [hs] at h
    cases h
  · rw [hs] at h
    exact ⟨_, hr.trans h⟩

theorem exists_resolve_of_splitRelation (h : (r.splitRelation s).identifier = some identifier) :
    ∃ key, r.resolve key = some identifier := by
  cases hstop : splitAtStop s with
  | none =>
    rw [splitRelation_of_none hstop] at h
    exact ⟨standardPrefix, h⟩
  | some p =>
    rw [splitRelation_of_some hstop] at h
    exact exists_resolve_of_split h

/-- What a prefix stands for has a prefix from there on. -/
theorem isKnown_of_resolve {q : QualifiedName} (hfront : front ⊆ ds)
    (h : ∀ identifier, q.identifier = some identifier →
      ∃ key, (seeded.registerAll front).resolve key = some identifier) :
    q.IsKnown (seeded.registerAll ds) := by
  intro identifier hid
  obtain ⟨key, hkey⟩ := h identifier hid
  exact isSome_prefixFor_registerAll
    ((known_of_resolve hfront hkey).imp_left Option.isSome_of_eq_some)

/-- A relation without a full stop belongs to the standard context set, which there always is. -/
theorem stop_mem_of_splitRelation
    (h : ((seeded.registerAll ds).splitRelation s).identifier = none) :
    '.' ∈ ((seeded.registerAll ds).splitRelation s).name.toList := by
  cases hstop : splitAtStop s with
  | none =>
    have hstandard := isSome_resolve_standardPrefix ds
    rw [splitRelation_of_none hstop] at h
    rw [show (seeded.registerAll ds).resolve standardPrefix = none from h] at hstandard
    cases hstandard
  | some p =>
    rw [splitRelation_of_some hstop] at h ⊢
    rcases split_cases (seeded.registerAll ds) s with hs | ⟨key, name, i, -, -, hs⟩
    · rw [hs]
      exact stop_mem_of_splitAtStop hstop
    · rw [hs] at h
      cases h

/-- A clause is well formed wherever its names were resolved with some of the declarations. -/
theorem wellFormed_resolve {field relation term : String} {ms : List Modifier}
    (hfront : front ⊆ ds) (hms : ∀ m ∈ ms, m.Writable) :
    (Clause.resolve (seeded.registerAll front) field relation ms term).WellFormed
      (seeded.registerAll ds) where
  modifiers := hms
  relation := stop_mem_of_splitRelation
  knownField := isKnown_of_resolve hfront fun _ => exists_resolve_of_split
  knownRelation := isKnown_of_resolve hfront fun _ => exists_resolve_of_splitRelation

end Resolve

namespace Cql
variable {choice : ServerChoice}

theorem wellFormed_of_isRead {ds : List (String × String)} {c : Clause}
    (h : c.IsRead choice ds) : c.WellFormed (Registry.seeded.registerAll ds) := by
  cases h with
  | inherited front hterm => exact wellFormed_resolve front.subset nofun
  | worded front hfield hrelation hms hterm =>
    exact wellFormed_resolve front.subset fun m hm => (hms m hm).writable

theorem wellFormed_of_read {text : String} {q : Query} (h : read choice text = .ok q) :
    q.WellFormed := by
  obtain ⟨m, hm, rfl⟩ := means_of_read h
  exact ⟨hm.height, Node.Each.mono hm.isRead.node (fun _ => wellFormed_of_isRead)
    fun _ hms m hm => (hms m hm).writable⟩

section Height
variable {e : Ending} {n : Nat} {scope : Scope} {r : Registry} {ts : List Token} {p : Parsed}

theorem height_of_clause (h : clause e n scope r ts = .ok p) : p.height = p.node.height := by
  obtain ⟨m, rest, -, rfl, -⟩ := understands_clause h
  rfl

theorem height_of_query (h : query e (clause e n scope) r ts = .ok p) :
    p.height = p.node.height := by
  obtain ⟨m, rest, -, rfl, -⟩ := understands_query (fun _ _ _ => understands_clause) h
  rfl

end Height

end Cql

namespace Fq
variable {choice : ServerChoice} {members : List (String × Json)}

/-- Do the modifiers come from the members of one object, without those that are `taken`? -/
structure AreMembers (taken : List String) (ms : List Modifier) : Prop where
  equalities : ∀ m ∈ ms, m.relation = "="
  names : (ms.map Modifier.name).Nodup
  free : ∀ m ∈ ms, m.name ∉ taken

/-- Do all modifiers of the tree come from members that are not read as something else? -/
def HasMembers : Node → Prop :=
  Node.Each (fun c => AreMembers clauseNames c.modifiers) (AreMembers booleanNames)

/-- The modifiers have the names of their members, in order. -/
theorem names_of_readModifiers {taken : List String} {ms : List Modifier}
    (h : readModifiers taken members = .ok ms) :
    (members.filter fun e => !taken.contains e.1).map Prod.fst = ms.map Modifier.name := by
  rw [← List.forall₂_eq_eq_eq, List.forall₂_map_left_iff, List.forall₂_map_right_iff]
  refine (mapM_eq_ok_iff.1 h).imp fun e m he => ?_
  obtain ⟨-, value, rfl⟩ := readModifier_inv he
  rfl

theorem areMembers_of_readModifiers {taken : List String} {ms : List Modifier}
    (hmembers : (members.map Prod.fst).Nodup) (h : readModifiers taken members = .ok ms) :
    AreMembers taken ms := by
  have hnames := names_of_readModifiers h
  refine ⟨fun m hm => (isEquality_of_readModifiers h m hm).2, ?_, fun m hm => ?_⟩
  · rw [← hnames]
    exact hmembers.sublist (List.filter_sublist.map Prod.fst)
  · have hmem : m.name ∈ ms.map Modifier.name := List.mem_map_of_mem hm
    rw [← hnames] at hmem
    obtain ⟨e, he, hname⟩ := List.mem_map.1 hmem
    rw [← hname]
    simpa using (List.mem_filter.1 he).2

theorem hasMembers_of_readNode {r : Registry} {height : Nat} {j : Json} {n : Node}
    (h : readNode r choice height j = .ok n) (hj : j.HasDistinctNames) : HasMembers n := by
  refine each_of_readNode Json.HasDistinctNames (fun _ hgood => hgood.members.each) ?_ ?_ h hj
  · intro members c hgood hc
    obtain ⟨field, relation, ms, term, rfl, hms⟩ := resolve_of_readClause hc
    exact areMembers_of_readModifiers hgood.members.names hms
  · intro members ms hgood hms
    exact areMembers_of_readModifiers hgood.members.names hms

/-- The tree takes no more levels than the reader allows. -/
theorem height_le_room_of_readNode {r : Registry} {height : Nat} {j : Json} {n : Node}
    (h : readNode r choice height j = .ok n) : n.height ≤ height := by
  induction n generalizing height j with
  | clause c =>
    obtain ⟨room, members, rfl, -, -⟩ := represents_of_readNode h
    exact Nat.le_add_left 1 room
  | boolean op ms left right ihl ihr =>
    obtain ⟨room, members, rfl, -, hn⟩ := represents_of_readNode h
    cases hn with
    | boolean _ _ _ hl hr =>
      have hleft := ihl hl
      have hright := ihr hr
      rw [Node.height]
      omega

theorem wellFormed_of_readNode {height : Nat} {j : Json} {n : Node}
    (h : readNode seeded choice height j = .ok n) :
    n.Each (·.WellFormed seeded) fun ms => ∀ m ∈ ms, m.Writable := by
  have hwritable {taken : List String} {members : List (String × Json)} {ms : List Modifier}
      (hms : readModifiers taken members = .ok ms) : ∀ m ∈ ms, m.Writable := fun m hm =>
    (isEquality_of_readModifiers hms m hm).writable
  refine each_of_readNode (fun _ => True) (fun _ _ _ _ => trivial) ?_
    (fun _ _ _ hms => hwritable hms) h trivial
  intro members c _ hc
  obtain ⟨field, relation, ms, term, rfl, hms⟩ := resolve_of_readClause hc
  exact wellFormed_resolve (List.Subset.refl []) (hwritable hms)

theorem wellFormed_of_ofJson {j : Json} {q : Query} (hj : j.HasDistinctNames)
    (h : ofJson choice j = .ok q) : q.WellFormed ∧ HasMembers q.root := by
  obtain ⟨root, hroot, rfl⟩ := readNode_of_ofJson h
  exact ⟨⟨height_le_room_of_readNode hroot, wellFormed_of_readNode hroot⟩,
    hasMembers_of_readNode hroot hj⟩

theorem wellFormed_of_read {text : String} {q : Query} (h : read choice text = .ok q) :
    q.WellFormed ∧ HasMembers q.root := by
  obtain ⟨j, hj, hq⟩ := ofJson_of_read h
  exact wellFormed_of_ofJson (Json.hasDistinctNames_of_read? hj) hq

end Fq

/-- Whatever is read, from text, from FQ or from a JSON value, is well formed, and the height that
the reader of text counts is the height of the tree. -/
theorem wellFormed_of_any_read (choice : ServerChoice) :
    (∀ (text : String) (q : Query), Cql.read choice text = .ok q → q.WellFormed) ∧
    (∀ (text : String) (q : Query), Fq.read choice text = .ok q →
      q.WellFormed ∧ Fq.HasMembers q.root) ∧
    (∀ (j : Json) (q : Query), j.HasDistinctNames → Fq.ofJson choice j = .ok q →
      q.WellFormed ∧ Fq.HasMembers q.root) ∧
    ∀ (e : Cql.Ending) (n : Nat) (scope : Cql.Scope) (r : Registry) (ts : List Cql.Token)
      (p : Cql.Parsed), Cql.clause e n scope r ts = .ok p ∨
        Cql.query e (Cql.clause e n scope) r ts = .ok p → p.height = p.node.height :=
  ⟨fun _ _ => Cql.wellFormed_of_read, fun _ _ => Fq.wellFormed_of_read,
    fun _ _ => Fq.wellFormed_of_ofJson,
    fun _ _ _ _ _ _ h => h.elim Cql.height_of_clause Cql.height_of_query⟩

/-- A flag and a comparison, behind an index of a declared context set. -/
def modifiedText : String := ">a=urn:x (a.title =/stem/lang<\"\" fish) and sea"

def repeatedText : String :=
  "\x7b\"b\": 1, \"term\": \"fish\", \"b\": true, \"s1\": \"x\", \"relation\": \"dc.eq\"\x7d"

def memberJson : Json := .object [("term", .string "fish"), ("s1", .bool true)]

theorem hasDistinctNames_memberJson : memberJson.HasDistinctNames := by
  refine .object (by decide) ?_
  exact List.forall_mem_cons.2 ⟨.string _, List.forall_mem_cons.2 ⟨.bool _, nofun⟩⟩

theorem wellFormed_of_any_read_modifiedText :
    (∃ q, Cql.read .standard modifiedText = .ok q ∧ q.WellFormed) ∧
    (∃ q, Fq.read .standard repeatedText = .ok q ∧ q.WellFormed ∧ Fq.HasMembers q.root) ∧
    (∃ q, Fq.ofJson .standard memberJson = .ok q ∧ q.WellFormed ∧ Fq.HasMembers q.root) ∧
    ∃ p, Cql.query (.complete .start) (Cql.clause (.complete .start) 1 (.ofChoice .standard))
      .seeded (Cql.Scan.ofText "fish or sea").tokens = .ok p ∧ p.height = p.node.height := by
  obtain ⟨htext, hfq, hjson, hheight⟩ := wellFormed_of_any_read .standard
  obtain ⟨q, hq⟩ := exists_ok_of_isSome (x := Cql.read .standard modifiedText) (by decide +kernel)
  obtain ⟨q', hq'⟩ := exists_ok_of_isSome (x := Fq.read .standard repeatedText) (by decide +kernel)
  obtain ⟨q'', hq''⟩ :=
    exists_ok_of_isSome (x := Fq.ofJson .standard memberJson) (by decide +kernel)
  obtain ⟨p, hp⟩ := exists_ok_of_isSome (x := Cql.query (.complete .start)
    (Cql.clause (.complete .start) 1 (.ofChoice .standard)) .seeded
    (Cql.Scan.ofText "fish or sea").tokens) (by decide +kernel)
  exact ⟨⟨q, hq, htext _ _ hq⟩, ⟨q', hq', hfq _ _ hq'⟩,
    ⟨q'', hq'', hjson _ _ hasDistinctNames_memberJson hq''⟩, p, hp,
    hheight _ _ _ _ _ _ (.inr hp)⟩

end ContextQuery
