import ContextQuery.Proofs.Cql.Origin
import ContextQuery.Proofs.Cql.Outline
import ContextQuery.Proofs.Cql.Reread
import ContextQuery.Proofs.Fq.Restore
import ContextQuery.Proofs.Query.History

namespace ContextQuery
open Text

def Node.clauses : Node → List Clause
  | .clause c => [c]
  | .boolean _ _ left right => left.clauses ++ right.clauses

namespace Fq

/-- Wherever FQ has the relation of the clause, does it have `s` for it? -/
def WritesRelation (r : Registry) (choice : ServerChoice) (c : Clause) (s : String) : Prop :=
  ∀ written, ("relation", written) ∈ clauseMembers r choice c → written = s

theorem writesRelation_iff {r : Registry} {choice : ServerChoice} {c : Clause} {s : String}
    (h : c.relation.name ≠ "") : WritesRelation r choice c s ↔
      c.hasChosenRelation r choice = true ∨ mnemonic (r.qualifyRelation c.relation) = s := by
  have hmodifiers (written : String) :
      ("relation", written) ∉ modifierMembers clauseNames c.modifiers := fun hmem =>
    not_mem_of_mem_modifierMembers hmem (by simp [clauseNames])
  have hname : c.relation.name.isEmpty = false := String.isEmpty_eq_false_iff.2 h
  have hmem (written : String) : ("relation", written) ∈ clauseMembers r choice c ↔
      c.hasChosenRelation r choice = false ∧
        written = mnemonic (r.qualifyRelation c.relation) := by
    cases hchosen : c.hasChosenRelation r choice with
    | true => simp [clauseMembers, hmodifiers, hname, hchosen]
    | false => simp [clauseMembers, hmodifiers, hname, hchosen]
  rw [WritesRelation]
  simp only [hmem]
  cases c.hasChosenRelation r choice with
  | true => simp
  | false => simp

end Fq

namespace Cql

namespace Outline

def relations : Outline → List Token
  | .term _ => []
  | .indexed _ relation _ inner => relation :: inner.relations
  | .declared _ _ inner => inner.relations
  | .boolean _ _ left right => left.relations ++ right.relations

/-- The clauses in the order of the text, each with the token of its relation. There is none for the
server's choice; `relation` is the one in force. -/
def clauses (registry : Token → Registry) :
    Scope → Option Token → Outline → List (Option Token × Clause)
  | scope, relation, .term t =>
    [(relation, .resolve (registry t) scope.field scope.relation scope.modifiers t.lower)]
  | _, _, .indexed index relation ms inner =>
    inner.clauses registry ⟨index.lower, relation.lower, ms⟩ (some relation)
  | scope, relation, .declared _ _ inner => inner.clauses registry scope relation
  | scope, relation, .boolean _ _ left right =>
    left.clauses registry scope relation ++ right.clauses registry scope relation

/-- The clauses of a whole text, each resolved with what is declared in front of its term. -/
def resolvedClauses (o : Outline) (choice : ServerChoice) : List (Option Token × Clause) :=
  o.clauses (fun t => Registry.seeded.registerAll (declaredBefore o.log t)) (.ofChoice choice) none

theorem map_snd_clauses (registry : Token → Registry) (scope : Scope) (relation : Option Token)
    (o : Outline) :
    (o.clauses registry scope relation).map Prod.snd = (o.node registry scope).clauses := by
  induction o generalizing scope relation with
  | term t => rfl
  | indexed index relation ms inner ih => exact ih _ _
  | declared mark d inner ih => exact ih _ _
  | boolean op ms left right ihl ihr =>
    rw [clauses, List.map_append, ihl, ihr]
    rfl

/-- A clause with the token of its relation has the relation of that token. -/
theorem relation_of_mem_clauses {registry : Token → Registry} {o : Outline} {scope : Scope}
    {inForce : Option Token} {relation : Token} {c : Clause}
    (h : (some relation, c) ∈ o.clauses registry scope inForce)
    (hscope : ∀ t ∈ inForce, scope.relation = t.lower) :
    (∃ t, c.relation = (registry t).splitRelation relation.lower) ∧
      (inForce = some relation ∨ relation ∈ o.relations) := by
  induction o generalizing scope inForce with
  | term t =>
    obtain ⟨rfl, rfl⟩ := Prod.mk.inj (List.mem_singleton.1 h)
    exact ⟨⟨t, by rw [← hscope relation rfl]; rfl⟩, .inl rfl⟩
  | indexed index own ms inner ih =>
    obtain ⟨ht, hmem⟩ := ih h fun t ht => by rw [← Option.some.inj ht]
    refine ⟨ht, .inr (List.mem_cons.2 (hmem.imp_left fun h => ?_))⟩
    exact (Option.some.inj h).symm
  | declared mark d inner ih => exact ih h hscope
  | boolean op ms left right ihl ihr =>
    rcases List.mem_append.1 h with h | h
    · exact (ihl h hscope).imp_right (Or.imp_right (List.mem_append_left _))
    · exact (ihr h hscope).imp_right (Or.imp_right (List.mem_append_right _))

end Outline

def OutlinePhrase.relations : OutlinePhrase → List Token
  | .query | .clause => []
  | .chain left => left.relations

/-- The relations of an outline are tokens of its phrase; those of a chain may be in front of it. -/
theorem relations_subset {phrase : OutlinePhrase} {ts rest : List Token} {o : Outline}
    (h : Outlines phrase ts o rest) : o.relations ⊆ phrase.relations ++ ts := by
  induction h with
  | query clause _ ihf ihc =>
    exact List.Subset.trans ihc (List.append_subset.2 ⟨ihf, clause.suffix.subset⟩)
  | stop => exact List.subset_append_left _ _
  | @operator t ts mid after rest left right o op ms _ modifiers operand _ iho ihc =>
    have hmid : mid ⊆ t :: ts := (modifiers.suffix.trans (List.suffix_cons t ts)).subset
    have hright : right.relations ⊆ t :: ts := List.Subset.trans iho hmid
    have hafter : after ⊆ t :: ts := List.Subset.trans operand.suffix.subset hmid
    have hboth : left.relations ++ right.relations ⊆ left.relations ++ (t :: ts) :=
      List.append_subset.2
        ⟨List.subset_append_left _ _, List.subset_append_of_subset_right _ hright⟩
    exact List.Subset.trans ihc
      (List.append_subset.2 ⟨hboth, List.subset_append_of_subset_right _ hafter⟩)
  | group _ _ _ ih => exact List.Subset.trans ih (List.subset_cons_self _ _)
  | term => exact List.nil_subset _
  | @indexed t relation ts _ _ _ _ _ _ modifiers _ ih =>
    have hts : ts ⊆ t :: relation :: ts := (List.suffix_append [t, relation] ts).subset
    have hinner := List.Subset.trans ih (List.Subset.trans modifiers.suffix.subset hts)
    exact List.cons_subset.2 ⟨by simp, hinner⟩
  | declaration _ declaration _ ih =>
    exact List.Subset.trans ih
      (List.Subset.trans declaration.suffix.subset (List.subset_cons_self _ _))

section Written
variable {r : Registry} {choice : ServerChoice} {c : Clause} {comparator : String}

/-- Wherever query text has the relation of the clause, does it have `s` for it? -/
def WritesRelation (r : Registry) (choice : ServerChoice) (c : Clause) (s : String) : Prop :=
  isImplied r choice c = false → writeClause r choice c =
    writeWord (r.qualify c.field) ++ " " ++ s ++ writeModifiers c.modifiers ++ " " ++ quote c.term

theorem writesRelation_iff {s : String} : WritesRelation r choice c s ↔
    isImplied r choice c = true ∨ writeRelation (r.qualifyRelation c.relation) = s := by
  rw [WritesRelation, writeClause]
  cases isImplied r choice c with
  | true => simp
  | false => simp [← String.toList_inj]

theorem not_mem_comparatorRun (h : isComparatorRun comparator = true) :
    '.' ∉ comparator.toList := by
  intro hmem
  exact absurd ((isComparatorRun_iff.1 h).2 '.' hmem) (by decide)

theorem mem_writeRelation {s : String} {d : Char} (h : d ∈ s.toList) :
    d ∈ (writeRelation s).toList := by
  have hquote : d ∈ (quote s).toList := by
    simp only [quote, String.toList_append, toList_escape, List.mem_append]
    exact .inl (.inr (mem_escapeFrom_of_mem h))
  rw [writeRelation, writeWord]
  split
  · exact h
  · split
    · exact h
    · exact hquote

/-- A comparator is written bare, and with a prefix in front it is not written as a comparator. -/
theorem writeRelation_qualify_iff (h : isComparatorRun comparator = true) {key identifier : String}
    (hkey : r.prefixFor identifier = some key) :
    writeRelation (r.qualifyRelation ⟨comparator, some identifier⟩) = comparator ↔
      key = standardPrefix := by
  rw [Registry.qualifyRelation_known hkey]
  by_cases hs : key = standardPrefix
  · rw [if_pos hs, writeRelation, if_pos h]
    exact iff_of_true rfl hs
  · rw [if_neg hs]
    have hstop : '.' ∈ (writeRelation (Registry.joinPrefix key comparator)).toList :=
      mem_writeRelation (by simp [Registry.joinPrefix])
    exact iff_of_false (fun hwritten => not_mem_comparatorRun h (hwritten ▸ hstop)) hs

/-- A relation with a full stop has no word of its own in FQ. -/
theorem mnemonic_of_stop {s : String} (h : '.' ∈ s.toList) : Fq.mnemonic s = s := by
  have hall : ∀ p ∈ Fq.mnemonics, '.' ∉ p.1.toList := by decide
  have hnone : Fq.mnemonics.find? (fun p => p.1 == s) = none := by
    rw [List.find?_eq_none]
    intro p hp hs
    exact hall p hp (beq_iff_eq.1 hs ▸ h)
  simp only [Fq.mnemonic, hnone]

theorem not_mem_mnemonic (h : isComparatorRun comparator = true) :
    '.' ∉ (Fq.mnemonic comparator).toList := by
  rw [Fq.mnemonic]
  split
  · next p hp =>
    have hall : ∀ p ∈ Fq.mnemonics, '.' ∉ p.2.toList := by decide
    exact hall p (List.mem_of_find?_eq_some hp)
  · exact not_mem_comparatorRun h

/-- FQ has the word for a comparator, and with a prefix in front it has no word for it. -/
theorem mnemonic_qualify_iff (h : isComparatorRun comparator = true) {key identifier : String}
    (hkey : r.prefixFor identifier = some key) :
    Fq.mnemonic (r.qualifyRelation ⟨comparator, some identifier⟩) = Fq.mnemonic comparator ↔
      key = standardPrefix := by
  rw [Registry.qualifyRelation_known hkey]
  by_cases hs : key = standardPrefix
  · rw [if_pos hs]
    exact iff_of_true rfl hs
  · rw [if_neg hs]
    have hstop : '.' ∈ (Registry.joinPrefix key comparator).toList := by simp [Registry.joinPrefix]
    have hown : Fq.mnemonic (Registry.joinPrefix key comparator) = _ :=
      mnemonic_of_stop hstop
    refine iff_of_false (fun hwritten => not_mem_mnemonic h ?_) hs
    rwa [← hwritten, hown]

end Written

section Text
variable {choice : ServerChoice} {text : String} {q : Query}

/-- A comparator of a text is written as a comparator exactly where the context set that it belongs
to was last declared under the standard prefix, if it was declared at all. -/
theorem comparator_written_iff (h : read choice text = .ok q) : ∃ ts p o,
    tokenize text = .ok (ts ++ [.endOfText p]) ∧ (∀ o', Outlines .query ts o' [] ↔ o' = o) ∧
      (o.resolvedClauses choice).map Prod.snd = q.root.clauses ∧
      ∀ relation c, (some relation, c) ∈ o.resolvedClauses choice → relation.kind = .comparator →
        ∃ identifier, c.relation = ⟨relation.value, some identifier⟩ ∧
          (WritesRelation q.registry choice c relation.value ↔
            isImplied q.registry choice c = true ∨
              Registry.LastUnder o.declarations standardPrefix identifier) ∧
          (Fq.WritesRelation q.registry choice c (Fq.mnemonic relation.value) ↔
            c.hasChosenRelation q.registry choice = true ∨
              Registry.LastUnder o.declarations standardPrefix identifier) := by
  obtain ⟨ts, p, o, ht, ho, hregistry, hroot⟩ := exists_outline_of_read h
  refine ⟨ts, p, o, ht, ho.eq_iff, ?_, fun relation c hc hkind => ?_⟩
  · rw [hroot]
    exact o.map_snd_clauses _ _ _
  obtain ⟨⟨t, ht'⟩, hmem⟩ := Outline.relation_of_mem_clauses hc nofun
  have hts : relation ∈ ts := relations_subset ho (hmem.resolve_left nofun)
  have hrun := isScanned_tokenize ht relation hts hkind
  have hlower : relation.lower = relation.value := lowerCase_comparatorRun hrun
  have hsplit : Registry.splitAtStop relation.value = none := by
    rw [Option.eq_none_iff_forall_ne_some]
    exact fun _ hsome => not_mem_comparatorRun hrun (Registry.stop_mem_of_splitAtStop hsome)
  rw [hlower, Registry.splitRelation_of_none hsplit] at ht'
  have hfront : declaredBefore o.log t ⊆ o.declarations :=
    List.map_subset _ (List.filter_subset_self _)
  have hresolved : ((Registry.seeded.registerAll (declaredBefore o.log t)).resolve
      standardPrefix).isSome = true := Registry.isSome_resolve_standardPrefix _
  obtain ⟨identifier, hid⟩ := Option.isSome_iff_exists.1 hresolved
  have hknown := Registry.known_of_resolve hfront hid
  obtain ⟨key, hkey⟩ := Option.isSome_iff_exists.1 (Registry.isSome_prefixFor_registerAll
    (hknown.imp_left Option.isSome_of_eq_some))
  have hstandard : key = standardPrefix ↔
      Registry.LastUnder o.declarations standardPrefix identifier := by
    rw [← Registry.prefixFor_registerAll_iff hknown, hkey, Option.some.injEq]
  have hq : c.relation = ⟨relation.value, some identifier⟩ := by rw [ht', hid]
  have hne : c.relation.name ≠ "" := by
    rw [hq]
    exact (isComparatorRun_iff.1 hrun).1
  refine ⟨identifier, hq, ?_, ?_⟩
  · rw [writesRelation_iff, hq, hregistry, writeRelation_qualify_iff hrun hkey, hstandard]
  · rw [Fq.writesRelation_iff hne, hq, hregistry, mnemonic_qualify_iff hrun hkey, hstandard]

end Text

/-- The context set of the comparators under a prefix of its own. -/
def aliasingText : String := ">x=\"info:srw/cql-context-set/1/cql-v1.2\" title = fish"

def aliasingTokens : List Token :=
  [⟨.comparator, ">", ⟨1, 1, 0⟩, 1⟩, ⟨.bareword, "x", ⟨1, 2, 1⟩, 2⟩,
    ⟨.comparator, "=", ⟨1, 3, 2⟩, 3⟩,
    ⟨.quoted, "info:srw/cql-context-set/1/cql-v1.2", ⟨1, 4, 3⟩, 40⟩,
    ⟨.bareword, "title", ⟨1, 42, 41⟩, 46⟩, ⟨.comparator, "=", ⟨1, 48, 47⟩, 48⟩,
    ⟨.bareword, "fish", ⟨1, 50, 49⟩, 53⟩]

def aliasingOutline : Outline :=
  .declared ⟨.comparator, ">", ⟨1, 1, 0⟩, 1⟩ ("x", "info:srw/cql-context-set/1/cql-v1.2")
    (.indexed ⟨.bareword, "title", ⟨1, 42, 41⟩, 46⟩ ⟨.comparator, "=", ⟨1, 48, 47⟩, 48⟩ []
      (.term ⟨.bareword, "fish", ⟨1, 50, 49⟩, 53⟩))

def aliasingClause : Clause :=
  ⟨⟨"title", none⟩, ⟨"=", some "info:srw/cql-context-set/1/cql-v1.2"⟩, [], "fish"⟩

def aliasingQuery : Query :=
  ⟨some aliasingText, .clause aliasingClause,
    Registry.seeded.registerAll [("x", "info:srw/cql-context-set/1/cql-v1.2")], .standard⟩

theorem tokenize_aliasingText :
    tokenize aliasingText = .ok (aliasingTokens ++ [.endOfText ⟨1, 54, 53⟩]) := by
  decide +kernel

theorem read_aliasingText : read .standard aliasingText = .ok aliasingQuery := by
  have hclause : aliasingClause = .resolve (Registry.seeded.registerAll
      [("x", "info:srw/cql-context-set/1/cql-v1.2")]) "title" "=" [] "fish" := by decide +kernel
  have hmeans : Means .standard aliasingText
      ⟨.clause aliasingClause, 3, [("x", "info:srw/cql-context-set/1/cql-v1.2")]⟩ := by
    refine ⟨by decide, ⟨_, _, tokenize_aliasingText, ?_⟩, by decide, by decide⟩
    rw [hclause]
    exact .query (.declaration rfl (.named rfl rfl (.quoted rfl))
      (.query (.indexed rfl rfl (.none (by decide)) (.term rfl nofun)) (.stop nofun))) (.stop nofun)
  exact read_of_means hmeans

/-- The relation of this text is a comparator that is written as no comparator. -/
theorem comparator_written_iff_aliasingText :
    read .standard aliasingText = .ok aliasingQuery ∧
      (some ⟨.comparator, "=", ⟨1, 48, 47⟩, 48⟩, aliasingClause) ∈
        aliasingOutline.resolvedClauses .standard ∧
      ¬ WritesRelation aliasingQuery.registry .standard aliasingClause "=" ∧
      ¬ Fq.WritesRelation aliasingQuery.registry .standard aliasingClause (Fq.mnemonic "=") := by
  obtain ⟨ts, p, o, ht, hone, -, hall⟩ := comparator_written_iff read_aliasingText
  obtain ⟨rfl, -⟩ := List.append_inj' (Except.ok.inj (tokenize_aliasingText.symm.trans ht)) rfl
  obtain rfl : aliasingOutline = o := (hone _).1 (.query (.declaration rfl
    (.named rfl rfl (.quoted rfl)) (.query (.indexed rfl rfl (.none (by decide)) (.term rfl nofun))
      (.stop nofun))) (.stop nofun))
  have hmem : (some ⟨.comparator, "=", ⟨1, 48, 47⟩, 48⟩, aliasingClause) ∈
      aliasingOutline.resolvedClauses .standard := by decide +kernel
  obtain ⟨identifier, hrelation, hcql, hfq⟩ := hall _ _ hmem rfl
  cases hrelation
  have hlast : ¬ Registry.LastUnder aliasingOutline.declarations standardPrefix
      "info:srw/cql-context-set/1/cql-v1.2" := fun h =>
    absurd (h [] "x" [] rfl (by simp)) (by decide)
  refine ⟨read_aliasingText, hmem, ?_, ?_⟩
  · exact fun h => (hcql.1 h).elim (by decide +kernel) hlast
  · exact fun h => (hfq.1 h).elim (by decide +kernel) hlast

end Cql

end ContextQuery
