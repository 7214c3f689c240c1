import ContextQuery.Proofs.Cql.Origin
import ContextQuery.Proofs.Cql.Reread
import ContextQuery.Proofs.Cql.Unambiguous

namespace ContextQuery.Cql
open Text Registry

theorem lowered_normalWord (s : String) : Lowered (normalWord s) := lowered_lowerCase _

theorem normalWord_of_lowered {s : String} (h : Lowered s) :
    normalWord s = if isBare s then s else escape s := by
  unfold normalWord
  split
  · exact h.lowerCase_eq
  · exact (lowered_escape h).lowerCase_eq

theorem wordContent_normalWord {s : String} (h : Lowered s) :
    wordContent (normalWord s) = wordContent s := by
  rw [normalWord_of_lowered h]
  by_cases hb : isBare s = true
  · rw [if_pos hb]
  · rw [if_neg hb, wordContent, isBare_escape (Bool.eq_false_iff.2 hb), escape_escape, wordContent,
      if_neg hb]
    rfl

theorem escape_normalTerm {s : String} (h : Lowered s) : escape (normalTerm s) = escape s := by
  rw [normalTerm, (lowered_escape h).lowerCase_eq, escape_escape]

theorem modifierContents_normalModifier {m : Modifier} (h : m.IsRead) :
    modifierContents (normalModifier m) = modifierContents m := by
  have hname := wordContent_normalWord h.name
  have hvalue := wordContent_normalWord h.value
  by_cases hf : m.isFlag = true
  · have hf' : (normalModifier m).isFlag = true := hf
    simp only [modifierContents, hf, hf', ↓reduceIte]
    rw [← hname]
    rfl
  · have hf' : ¬ (normalModifier m).isFlag = true := hf
    simp only [modifierContents, hf, hf', ↓reduceIte, Bool.false_eq_true]
    rw [← hname, ← hvalue]
    simp only [normalModifier, hf, ↓reduceIte, Bool.false_eq_true]

theorem modifiersContents_normalModifier {ms : List Modifier} (h : ∀ m ∈ ms, m.IsRead) :
    (ms.map normalModifier).flatMap modifierContents = ms.flatMap modifierContents := by
  induction ms with
  | nil => rfl
  | cons m ms ih =>
    rw [List.map_cons, List.flatMap_cons, List.flatMap_cons,
      modifierContents_normalModifier (h m List.mem_cons_self),
      ih fun m' hm' => h m' (List.mem_cons_of_mem m hm')]

section Relation
variable {s : String}

theorem lowered_normalRelation (s : String) : Lowered (normalRelation s) := by
  unfold normalRelation
  split
  · next h =>
    rw [← lowerCase_comparatorRun h]
    exact lowered_lowerCase s
  · exact lowered_normalWord s

theorem relationContent_normalRelation (h : Lowered s) :
    relationContent (normalRelation s) = relationContent s := by
  unfold normalRelation
  by_cases hr : isComparatorRun s = true
  · rw [if_pos hr]
  · rw [if_neg hr]
    have hr' : ¬ isComparatorRun (normalWord s) = true := by
      rw [normalWord_of_lowered h]
      split
      · exact hr
      · rw [isComparatorRun_iff] at hr ⊢
        intro ⟨hne, hall⟩
        refine hr ⟨mt escape_eq_empty_iff.2 hne, fun c hc => hall c ?_⟩
        rw [toList_escape]
        exact mem_escapeFrom_of_mem hc
    rw [relationContent, if_neg hr', relationContent, if_neg hr, wordContent_normalWord h]

/-- Escaping leaves what neither quotes nor escapes in front as it is. -/
theorem escape_joinPrefix {key : String} (h : Plain key.toList) (name : String) :
    escape (joinPrefix key name) = joinPrefix key (escape name) := by
  have hjoin : (joinPrefix key name).toList = (key.toList ++ ['.']) ++ name.toList := by
    simp [joinPrefix]
  have hplain : Plain (key.toList ++ ['.']) := by
    intro c hc
    rcases List.mem_append.1 hc with hc | hc
    · exact h c hc
    · rw [List.mem_singleton.1 hc]
      decide
  rw [escape, hjoin, escapeFrom_append hplain, joinPrefix, ← String.toList_inj]
  simp [toList_escape]

theorem isStandard_escape (s : String) : isStandard (escape s) = isStandard s := by
  have hplain : Plain standardPrefix.toList := by decide
  rw [Bool.eq_iff_iff, isStandard_iff, isStandard_iff]
  constructor
  · rintro ⟨name, h⟩
    have hlist : escapeFrom false s.toList = "cql.".toList ++ name.toList := by
      rw [← toList_escape, h]
      simp [joinPrefix, standardPrefix]
    obtain ⟨rest, hs, -⟩ := escapeFrom_eq_append (by decide) hlist
    refine ⟨String.ofList rest, ?_⟩
    rw [← String.toList_inj, hs]
    simp [joinPrefix, standardPrefix]
  · rintro ⟨name, rfl⟩
    exact ⟨escape name, escape_joinPrefix hplain name⟩

theorem isStandard_normalRelation (h : Lowered s) :
    isStandard (normalRelation s) = isStandard s := by
  unfold normalRelation
  split
  · rfl
  · rw [normalWord_of_lowered h]
    split
    · rfl
    · exact isStandard_escape s

theorem relationContent_cases (s : String) : relationContent s = (.comparator, s) ∨
    relationContent s = (.bareword, s) ∨ relationContent s = (.quoted, escape s) := by
  unfold relationContent wordContent
  split
  · exact .inl rfl
  · split
    · exact .inr (.inl rfl)
    · exact .inr (.inr rfl)

/-- Without the standard prefix a relation is shorter, whether it is escaped or not. -/
theorem relationContent_ne_joinPrefix (name : String) :
    relationContent name ≠ relationContent (joinPrefix standardPrefix name) := by
  have hrun : ¬ isComparatorRun (joinPrefix standardPrefix name) = true := by
    intro hrun
    exact absurd ((isComparatorRun_iff.1 hrun).2 'c' (by simp [joinPrefix, standardPrefix]))
      (by decide)
  have hescape : escape (joinPrefix standardPrefix name) =
      joinPrefix standardPrefix (escape name) := escape_joinPrefix (by decide) name
  intro he
  rw [show relationContent (joinPrefix standardPrefix name) =
    wordContent (joinPrefix standardPrefix name) from if_neg hrun, wordContent, hescape] at he
  split at he
  · rcases relationContent_cases name with hc | hc | hc
    · simp [hc] at he
    · rw [hc] at he
      exact joinPrefix_ne standardPrefix name (Prod.mk.inj he).2
    · simp [hc] at he
  · rcases relationContent_cases name with hc | hc | hc
    · simp [hc] at he
    · simp [hc] at he
    · rw [hc] at he
      exact joinPrefix_ne standardPrefix (escape name) (Prod.mk.inj he).2

/-- A relation is read off again unless it begins with the standard prefix. -/
theorem relationContent_reread_iff (h : Lowered s) :
    relationContent (seeded.qualifyRelation (seeded.splitRelation (normalRelation s))) =
      relationContent s ↔ isStandard s = false := by
  constructor
  · intro he
    rw [Bool.eq_false_iff]
    intro hs
    rw [← isStandard_normalRelation h] at hs
    obtain ⟨name, hname⟩ := isStandard_iff.1 hs
    rw [← relationContent_normalRelation h, hname,
      qualifyRelation_of_standard (splitAtStop_joinPrefix (by decide) name)] at he
    exact relationContent_ne_joinPrefix name he
  · intro hs
    rw [qualifyRelation_splitRelation_seeded
      (hasLoweredPrefix_of_lowered (lowered_normalRelation s))
      ((isStandard_normalRelation h).trans hs), relationContent_normalRelation h]

end Relation

variable {choice : ServerChoice}

/-- What is inherited from the server's choice is left out again. -/
theorem isImplied_inherited (choice : ServerChoice) (term : String) :
    isImplied seeded choice (.resolve seeded choice.field choice.relation [] term) = true := by
  have hfield := isChosen_split_seeded choice.field
  have hrelation := isChosen_splitRelation_seeded choice.relation
  simp only [isImplied, Clause.resolve, Clause.hasChosenField, Clause.hasChosenRelation, hfield,
    hrelation, List.isEmpty_nil, Bool.and_self]

theorem clauseContents_of_implied {r : Registry} {c : Clause} (h : isImplied r choice c = true) :
    clauseContents r choice c = [(.quoted, escape c.term)] := by
  rw [clauseContents, headContents, if_pos h, List.nil_append]

theorem clauseContents_of_not_implied {r : Registry} {c : Clause}
    (h : isImplied r choice c = false) :
    clauseContents r choice c = wordContent (r.qualify c.field) ::
      relationContent (r.qualifyRelation c.relation) ::
        (c.modifiers.flatMap modifierContents ++ [(.quoted, escape c.term)]) := by
  rw [clauseContents, headContents, if_neg (Bool.eq_false_iff.1 h)]
  rfl

/-- Does the clause stay as it is written when its text is read and written again? Either it is the
server's choice, or its relation does not begin with the standard prefix and it does not become the
server's choice. -/
def IsStable (choice : ServerChoice) (c : Clause) : Prop :=
  isImplied seeded choice c = true ∨
    isStandard (seeded.qualifyRelation c.relation) = false ∧
      isImplied seeded choice (normalClause seeded choice c) = false

instance (choice : ServerChoice) (c : Clause) : Decidable (IsStable choice c) :=
  inferInstanceAs (Decidable (_ ∨ _))

theorem isStable_worded_iff {field relation term : String} {ms : List Modifier}
    (hfield : Lowered field) (hrelation : Lowered relation) (hms : ∀ m ∈ ms, m.IsRead)
    (hterm : Lowered term) {c : Clause} (hc : c = .resolve seeded field relation ms term)
    (hi : isImplied seeded choice c = false) :
    clauseContents seeded choice (normalClause seeded choice c) = clauseContents seeded choice c ↔
      IsStable choice c := by
  rw [clauseContents_of_not_implied hi]
  by_cases hni : isImplied seeded choice (normalClause seeded choice c) = true
  · -- The text of a clause that becomes the server's choice has fewer tokens.
    rw [clauseContents_of_implied hni]
    exact iff_of_false (by simp) (by simp [IsStable, hi, hni])
  · have hni := Bool.eq_false_iff.2 hni
    have hn : normalClause seeded choice c = .resolve seeded (normalWord (seeded.qualify c.field))
        (normalRelation (seeded.qualifyRelation c.relation)) (c.modifiers.map normalModifier)
        (normalTerm c.term) := if_neg (Bool.eq_false_iff.1 hi)
    have hq : seeded.qualify c.field = field := by
      rw [hc]
      exact qualify_split_seeded (hasLoweredPrefix_of_lowered hfield)
    have hq' : seeded.qualify (seeded.split (normalWord field)) = normalWord field :=
      qualify_split_seeded (hasLoweredPrefix_of_lowered (lowered_normalWord field))
    have hr : Lowered (seeded.qualifyRelation c.relation) := by
      rw [hc]
      exact lowered_qualifyRelation hasLoweredPrefixes_seeded (lowered_splitRelation hrelation)
    have hm : (c.modifiers.map normalModifier).flatMap modifierContents =
        c.modifiers.flatMap modifierContents := by
      rw [hc]
      exact modifiersContents_normalModifier hms
    have ht : escape (normalTerm c.term) = escape c.term := by
      rw [hc]
      exact escape_normalTerm hterm
    rw [clauseContents_of_not_implied hni, hn]
    simp only [Clause.resolve, hq, hq', wordContent_normalWord hfield, hm, ht, List.cons.injEq,
      true_and, and_true, relationContent_reread_iff hr, IsStable, hi, hni, Bool.false_eq_true,
      false_or]

theorem clauseContents_normalClause_iff {c : Clause} (h : c.IsRead choice []) :
    clauseContents seeded choice (normalClause seeded choice c) = clauseContents seeded choice c ↔
      IsStable choice c := by
  by_cases hi : isImplied seeded choice c = true
  · have hn : normalClause seeded choice c =
        .resolve seeded choice.field choice.relation [] (normalTerm c.term) := if_pos hi
    have hterm : escape (normalTerm c.term) = escape c.term := escape_normalTerm h.lowered_term
    rw [hn, clauseContents_of_implied (isImplied_inherited choice _), clauseContents_of_implied hi]
    exact iff_of_true (congrArg (fun s => [(TokenKind.quoted, s)]) hterm) (.inl hi)
  · cases h with
    | inherited front _ =>
      obtain rfl := List.prefix_nil.1 front
      exact absurd (isImplied_inherited choice _) hi
    | worded front hfield hrelation hms hterm =>
      obtain rfl := List.prefix_nil.1 front
      exact isStable_worded_iff hfield hrelation hms hterm rfl (Bool.eq_false_iff.2 hi)

/-- Do the parts of a tree stay as they are written? -/
theorem sameContents_normalNode_iff {n : Node} (h : n.IsRead choice []) :
    SameContents seeded choice seeded choice (normalNode seeded choice n) n ↔
      n.Each (IsStable choice) fun _ => True := by
  induction n with
  | clause c =>
    rw [Node.Each, ← clauseContents_normalClause_iff h]
    constructor
    · intro hs
      cases hs with
      | clause hc => exact hc
    · intro hc
      exact .clause hc
  | boolean op ms left right ihl ihr =>
    obtain ⟨hms, hl, hr⟩ := h
    rw [Node.Each, ← ihl hl, ← ihr hr]
    constructor
    · intro hs
      cases hs with
      | boolean _ hsl hsr => exact ⟨trivial, hsl, hsr⟩
    · rintro ⟨-, hsl, hsr⟩
      exact .boolean (modifiersContents_normalModifier hms) hsl hsr

theorem writable_normalModifier {m : Modifier} (h : m.Writable) : (normalModifier m).Writable := by
  obtain ⟨hname, hm⟩ := h
  refine ⟨?_, ?_⟩
  · change lowerCase _ ≠ ""
    refine mt lowerCase_eq_empty ?_
    split
    · exact hname
    · exact mt escape_eq_empty_iff.1 hname
  · rcases hm with ⟨hr, -⟩ | hr
    · have hf : m.isFlag = true := by rw [Modifier.isFlag, hr]; rfl
      exact .inl ⟨hr, if_pos hf⟩
    · exact .inr hr

theorem writable_normalNode {r : Registry} {n : Node} (h : n.Writable) :
    (normalNode r choice n).Writable := by
  have hmap {ms : List Modifier} (hms : ∀ m ∈ ms, m.Writable) :
      ∀ m ∈ ms.map normalModifier, m.Writable := by
    intro m hm
    obtain ⟨m', hm', rfl⟩ := List.mem_map.1 hm
    exact writable_normalModifier (hms m' hm')
  induction n with
  | clause c =>
    change ∀ m ∈ (normalClause r choice c).modifiers, m.Writable
    unfold normalClause
    split
    · exact nofun
    · exact hmap h
  | boolean op ms left right ihl ihr =>
    obtain ⟨hms, hl, hr⟩ := h
    exact ⟨hmap hms, ihl hl, ihr hr⟩

variable {text : String} {m : Meaning} {q : Query}

/-- The text of a query that declares nothing is accepted again, and written again byte for byte,
exactly where its parentheses fit and each of its clauses is stable. -/
theorem read_write_stable_iff (hq : read choice text = .ok q) (hm : Means choice text m)
    (hd : m.declared = []) :
    (∃ q', read choice (write q) = .ok q' ∧ write q' = write q) ↔
      writtenNesting q.registry choice q.root ≤ maxNesting ∧
        q.root.Each (IsStable choice) fun _ => True := by
  obtain ⟨hregistry, rfl, hroot⟩ :
      q.registry = seeded ∧ q.choice = choice ∧ q.root.IsRead choice [] := by
    have hread := read_of_means hm
    have hnode := hm.isRead.node
    rw [hd] at hread hnode
    obtain rfl := Except.ok.inj (hq.symm.trans hread)
    exact ⟨rfl, rfl, hnode⟩
  have hw := hroot.writable
  -- Unlike trees may have one text, so the texts are compared by the tokens that they show.
  rw [← sameContents_normalNode_iff hroot, hregistry]
  constructor
  · rintro ⟨q', hq', hwrite⟩
    by_cases hn : writtenNesting q.registry q.choice q.root ≤ maxNesting
    · obtain rfl := Except.ok.inj (hq'.symm.trans (read_write_of_fits hw hn))
      have hsame := (write_eq_write_iff (writable_normalNode hw) hw).1 hwrite
      rw [hregistry] at hn hsame
      exact ⟨hn, hsame⟩
    · obtain ⟨place, hdeep⟩ := read_write_of_deep hw (Nat.lt_of_not_le hn)
      cases hq'.symm.trans hdeep
  · rintro ⟨hn, hsame⟩
    rw [← hregistry] at hn
    refine ⟨_, read_write_of_fits hw hn, ?_⟩
    rw [write_eq_write_iff (writable_normalNode hw) hw, hregistry]
    exact hsame

/-- A relation that begins with the standard prefix twice. -/
def prefixedText : String := "title cql.cql.exact fish"

def prefixedClause : Clause := .resolve seeded "title" "cql.cql.exact" [] "fish"

def prefixedQuery : Query := ⟨some prefixedText, .clause prefixedClause, seeded, .standard⟩

theorem means_prefixedText : Means .standard prefixedText ⟨.clause prefixedClause, 2, []⟩ := by
  have hread : Reads (.ofText prefixedText)
      [⟨.bareword, "title", ⟨1, 1, 0⟩, 5⟩, ⟨.bareword, "cql.cql.exact", ⟨1, 7, 6⟩, 19⟩,
        ⟨.bareword, "fish", ⟨1, 21, 20⟩, 24⟩] ⟨[], ⟨1, 25, 24⟩⟩ :=
    .cons rfl (by decide) (.cons rfl (by decide) (.cons rfl (by decide) (.nil _)))
  have htokens := tokenize_eq_ok (congrArg Scan.ending hread.scan_ofText)
    (congrArg Scan.tokens hread.scan_ofText)
  refine ⟨by decide, ⟨_, _, htokens, ?_⟩, by decide, by decide⟩
  exact .query (.indexed (by decide) (by decide +kernel) (.none (by decide))
    (.term (by decide) nofun)) (.stop nofun)

theorem read_write_prefixedQuery : read .standard prefixedText = .ok prefixedQuery ∧
    ¬ ∃ q', read .standard (write prefixedQuery) = .ok q' ∧ write q' = write prefixedQuery := by
  have hread : read .standard prefixedText = .ok prefixedQuery := read_of_means means_prefixedText
  refine ⟨hread, fun h => ?_⟩
  have hstable : IsStable .standard prefixedClause :=
    ((read_write_stable_iff hread means_prefixedText rfl).1 h).2
  exact absurd hstable (by decide +kernel)

end ContextQuery.Cql
