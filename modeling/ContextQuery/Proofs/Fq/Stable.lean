import ContextQuery.Proofs.Cql.Stable
import ContextQuery.Proofs.Fq.Carried

namespace ContextQuery.Fq
open Cql Registry Text

section Modifiers
variable {taken : List String} {ms : List Modifier}

theorem length_modifierContents (h : ∀ m ∈ ms, m.relation = "=") :
    (ms.flatMap modifierContents).length = 4 * ms.length := by
  induction ms with
  | nil => rfl
  | cons m ms ih =>
    have hm : m.isFlag = false := by
      rw [Modifier.isFlag, h m List.mem_cons_self]
      rfl
    have hrest := ih fun m' hm' => h m' (List.mem_cons_of_mem m hm')
    simp only [List.flatMap_cons, modifierContents, hm, List.length_append, List.length_cons, hrest,
      Bool.false_eq_true, ↓reduceIte, List.length_nil]
    omega

theorem relation_of_mem_restoredModifiers {m : Modifier} (h : m ∈ restoredModifiers taken ms) :
    m.relation = "=" := by
  obtain ⟨e, -, rfl⟩ := List.mem_map.1 h
  rfl

/-- Modifiers are read off again if and only if their names differ. -/
theorem modifierContents_restored_iff (h : ∀ m ∈ ms, Carried taken m) :
    (restoredModifiers taken ms).flatMap modifierContents = ms.flatMap modifierContents ↔
      (ms.map Modifier.name).Nodup := by
  constructor
  · intro he
    -- Each modifier is written as four tokens, so their number tells whether one was lost.
    have hlength := congrArg List.length he
    rw [length_modifierContents fun m hm => relation_of_mem_restoredModifiers hm,
      length_modifierContents fun m hm => (h m hm).relation, restoredModifiers,
      List.length_map] at hlength
    rw [← keys_modifierMembers_eq h]
    apply Entries.nodup_of_length_le_insertAll
    rw [modifierMembers_eq h, List.length_map, ← modifierMembers_eq h]
    omega
  · intro hn
    rw [restoredModifiers_eq h hn]

theorem writable_restoredModifiers (h : ∀ m ∈ ms, m.Writable) :
    ∀ m ∈ restoredModifiers taken ms, m.Writable := by
  intro m hm
  obtain ⟨e, he, rfl⟩ := List.mem_map.1 hm
  have hequality : isComparatorRun "=" = true := by decide
  exact ⟨name_ne_of_mem_insertAll (fun m hm => (h m hm).1) he, .inr hequality⟩

end Modifiers

/-- A word for a comparator does not come back, for the comparator does. -/
theorem relationContent_of_mem_mnemonics {word : String} (h : word ∈ mnemonics.map Prod.snd) :
    relationContent (seeded.qualifyRelation (seeded.splitRelation (ofMnemonic (mnemonic word)))) ≠
      relationContent word := by
  have hall : ∀ word ∈ mnemonics.map Prod.snd, Lowered (ofMnemonic (mnemonic word)) ∧
      isStandard (ofMnemonic (mnemonic word)) = false ∧
      relationContent (ofMnemonic (mnemonic word)) ≠ relationContent word := by decide
  obtain ⟨hlowered, hstandard, hne⟩ := hall word h
  rwa [qualifyRelation_splitRelation_seeded (hasLoweredPrefix_of_lowered hlowered) hstandard]

/-- Does the relation come back as it was? One that is left out comes back as the server's. -/
def KeepsRelation (r : Registry) (c : Clause) : Prop :=
  if leavesOutRelation r .standard c then
    r.qualifyRelation c.relation = ServerChoice.standard.relation
  else r.qualifyRelation c.relation ∉ mnemonics.map Prod.snd ∧
    isStandard (r.qualifyRelation c.relation) = false

instance (r : Registry) (c : Clause) : Decidable (KeepsRelation r c) :=
  inferInstanceAs (Decidable (if leavesOutRelation r .standard c = true then _ else _))

variable {r : Registry} {c : Clause}

theorem relationContent_restoredClause_iff (h : Lowered (r.qualifyRelation c.relation)) :
    relationContent (seeded.qualifyRelation (restoredClause r .standard c).relation) =
      relationContent (r.qualifyRelation c.relation) ↔ KeepsRelation r c := by
  generalize hd : r.qualifyRelation c.relation = d at h
  unfold KeepsRelation restoredClause
  rw [hd]
  dsimp only [Clause.resolve]
  by_cases ho : leavesOutRelation r .standard c = true
  · rw [if_pos ho, if_pos ho]
    have hlowered : Lowered ServerChoice.standard.relation := by decide
    have hscr : relationContent ServerChoice.standard.relation =
        (.bareword, ServerChoice.standard.relation) := by decide
    rw [qualifyRelation_splitRelation_seeded (hasLoweredPrefix_of_lowered hlowered) (by decide),
      hscr]
    constructor
    · intro he
      rcases relationContent_cases d with hc | hc | hc
      · simp [hc] at he
      · rw [hc] at he
        exact (Prod.mk.inj he).2.symm
      · simp [hc] at he
    · rintro rfl
      exact hscr.symm
  · rw [if_neg ho, if_neg ho]
    by_cases hm : d ∈ mnemonics.map Prod.snd
    · exact iff_of_false (relationContent_of_mem_mnemonics hm) fun hk => hk.1 hm
    · rw [ofMnemonic_mnemonic hm]
      constructor
      · intro he
        refine ⟨hm, Bool.eq_false_iff.2 fun hs => ?_⟩
        obtain ⟨name, rfl⟩ := isStandard_iff.1 hs
        rw [qualifyRelation_of_standard (splitAtStop_joinPrefix (by decide) name)] at he
        exact relationContent_ne_joinPrefix name he
      · rintro ⟨-, hs⟩
        rw [qualifyRelation_splitRelation_seeded (hasLoweredPrefix_of_lowered h) hs]

section Read
variable {declared : List (String × String)}

theorem lowered_relation_of_isRead (h : c.IsRead .standard declared) (hr : r.HasLoweredPrefixes) :
    Lowered (r.qualifyRelation c.relation) := by
  apply lowered_qualifyRelation hr
  cases h with
  | inherited =>
    apply lowered_splitRelation
    decide
  | worded _ _ hrelation _ _ => exact lowered_splitRelation hrelation

theorem splitAtStop_standard :
    splitAtStop ServerChoice.standard.field = some ("cql", "serverChoice") := by decide

theorem hasLoweredPrefix_standard : HasLoweredPrefix ServerChoice.standard.field := by
  intro key name hname
  obtain ⟨rfl, -⟩ := Prod.mk.inj (Option.some.inj (splitAtStop_standard.symm.trans hname))
  decide

theorem hasLoweredPrefix_split_standard (r : Registry) :
    HasLoweredPrefix (r.split ServerChoice.standard.field).name := by
  rcases split_cases r ServerChoice.standard.field with hs | ⟨key, name, identifier, hs, -, hsplit⟩
  · rw [hs]
    exact hasLoweredPrefix_standard
  · obtain ⟨-, rfl⟩ := Prod.mk.inj (Option.some.inj (splitAtStop_standard.symm.trans hs))
    rw [hsplit]
    intro key name hname
    have hnone : splitAtStop "serverChoice" = none := by decide
    cases hnone.symm.trans hname

theorem hasLoweredPrefix_field_of_isRead (h : c.IsRead .standard declared)
    (hr : r.HasLoweredPrefixes) : HasLoweredPrefix (r.qualify c.field) := by
  apply hasLoweredPrefix_qualify hr
  cases h with
  | inherited => exact hasLoweredPrefix_split_standard _
  | worded _ hfield _ _ _ => exact hasLoweredPrefix_of_lowered (lowered_split hfield)

/-- A clause that is not the server's choice does not have the server's index. -/
theorem field_ne_of_isRead (h : c.IsRead .standard declared) (hr : r.HasLoweredPrefixes)
    (hi : isImplied r .standard c = false) : r.qualify c.field ≠ ServerChoice.standard.field := by
  intro hf
  have hfield : c.hasChosenField r .standard = true := by
    rw [Clause.hasChosenField, Clause.isChosen, hf, sameIgnoringCase_refl, Bool.or_true]
  cases h with
  | @inherited ds term _ _ =>
    have hnone : splitAtStop ServerChoice.standard.relation = none := by decide
    have hrelation : (Clause.resolve (seeded.registerAll ds) ServerChoice.standard.field
        ServerChoice.standard.relation [] term).hasChosenRelation r .standard = true := by
      rw [Clause.hasChosenRelation, Clause.isChosen, Clause.resolve, splitRelation_of_none hnone,
        sameIgnoringCase_refl, Bool.true_or]
    rw [isImplied, hfield, hrelation] at hi
    cases hi
  | @worded ds field relation term ms _ hlower _ _ _ =>
    -- The server's index has a capital letter, and no word of a text has one.
    have hlowered : Lowered (r.qualify ((seeded.registerAll ds).split field)) :=
      lowered_qualify hr (lowered_split hlower)
    have hcapital : ¬ Lowered ServerChoice.standard.field := by decide
    exact hcapital (hf ▸ hlowered)

end Read

/-- Does the clause keep its query text through FQ? -/
structure Kept (r : Registry) (c : Clause) : Prop where
  distinct : (c.modifiers.map Modifier.name).Nodup
  shown : ¬ LooksBoolean c.modifiers
  written : isImplied r .standard c = true ∨
    leavesOutField r .standard c = false ∧ KeepsRelation r c ∧
      isImplied seeded .standard (restoredClause r .standard c) = false

theorem wordContent_eq_standard {s : String}
    (h : wordContent ServerChoice.standard.field = wordContent s) :
    s = ServerChoice.standard.field := by
  have hfield : wordContent ServerChoice.standard.field =
      (.bareword, ServerChoice.standard.field) := by decide
  rw [hfield, wordContent] at h
  split at h
  · exact (Prod.mk.inj h).2.symm
  · cases (Prod.mk.inj h).1

/-- An index comes back as it was unless it is left out. -/
theorem wordContent_restoredClause_iff (hne : r.qualify c.field ≠ ServerChoice.standard.field)
    (h : HasLoweredPrefix (r.qualify c.field)) :
    wordContent (seeded.qualify (restoredClause r .standard c).field) =
      wordContent (r.qualify c.field) ↔ leavesOutField r .standard c = false := by
  unfold restoredClause
  dsimp only [Clause.resolve]
  by_cases ho : leavesOutField r .standard c = true
  · rw [if_pos ho, ho]
    rw [qualify_split_seeded hasLoweredPrefix_standard]
    exact iff_of_false (fun he => hne (wordContent_eq_standard he)) (by simp)
  · rw [if_neg ho, qualify_split_seeded h]
    exact iff_of_true rfl (Bool.eq_false_iff.2 ho)

theorem clauseContents_restoredClause_iff {declared : List (String × String)}
    (h : c.IsRead .standard declared) (hr : r.HasLoweredPrefixes)
    (hc : ∀ m ∈ c.modifiers, Carried clauseNames m) :
    clauseContents seeded .standard (restoredClause r .standard c) = clauseContents r .standard c ∧
      ¬ LooksBoolean c.modifiers ↔ Kept r c := by
  have hmodifiers := modifierContents_restored_iff hc
  by_cases hi : isImplied r .standard c = true
  · have hparts := hi
    simp only [isImplied, Bool.and_eq_true, List.isEmpty_iff] at hparts
    obtain ⟨⟨hms, hfield⟩, hrelation⟩ := hparts
    have hread : restoredClause r .standard c = .resolve seeded ServerChoice.standard.field
        ServerChoice.standard.relation [] c.term := by
      simp only [restoredClause, leavesOutField, leavesOutRelation, hfield, hrelation, Bool.or_true,
        ↓reduceIte, hms]
      rfl
    rw [hread, clauseContents_of_implied (isImplied_inherited _ _), clauseContents_of_implied hi]
    have hlooks : ¬ LooksBoolean c.modifiers := by
      rw [hms]
      decide
    exact iff_of_true ⟨rfl, hlooks⟩ ⟨by rw [hms]; exact List.nodup_nil, hlooks, .inl hi⟩
  · have hi := Bool.eq_false_iff.2 hi
    have hrelation := relationContent_restoredClause_iff (lowered_relation_of_isRead h hr)
    have hfield := wordContent_restoredClause_iff (field_ne_of_isRead h hr hi)
      (hasLoweredPrefix_field_of_isRead h hr)
    rw [clauseContents_of_not_implied hi]
    by_cases hni : isImplied seeded .standard (restoredClause r .standard c) = true
    · -- The term alone is fewer tokens than index, relation and term.
      rw [clauseContents_of_implied hni]
      refine iff_of_false (fun he => ?_) fun hk => ?_
      · simpa using he.1
      · rcases hk.written with hw | ⟨-, -, hw⟩
        · exact Bool.false_ne_true (hi.symm.trans hw)
        · exact Bool.false_ne_true (hw.symm.trans hni)
    · have hni := Bool.eq_false_iff.2 hni
      rw [clauseContents_of_not_implied hni]
      have hms : (restoredClause r .standard c).modifiers =
          restoredModifiers clauseNames c.modifiers := rfl
      have hterm : (restoredClause r .standard c).term = c.term := rfl
      rw [hms, hterm]
      constructor
      · rintro ⟨he, hlooks⟩
        obtain ⟨hword, htail⟩ := List.cons.inj he
        obtain ⟨hrel, hrest⟩ := List.cons.inj htail
        exact ⟨hmodifiers.1 (List.append_cancel_right hrest), hlooks,
          .inr ⟨hfield.1 hword, hrelation.1 hrel, hni⟩⟩
      · intro hk
        obtain ⟨ho, hkeeps, -⟩ := hk.written.resolve_left (Bool.eq_false_iff.1 hi)
        rw [hfield.2 ho, hrelation.2 hkeeps, hmodifiers.2 hk.distinct]
        exact ⟨rfl, hk.shown⟩

def KeptAll (r : Registry) : Node → Prop :=
  Node.Each (Kept r) fun ms => (ms.map Modifier.name).Nodup

theorem sameContents_restoredNode_iff {declared : List (String × String)}
    (hr : r.HasLoweredPrefixes) {n : Node} (h : n.IsRead .standard declared) (hc : CarriedAll n) :
    SameContents seeded .standard r .standard (restoredNode r .standard n) n ∧ ShowsClauses n ↔
      KeptAll r n := by
  induction n with
  | clause c =>
    have hclause := clauseContents_restoredClause_iff h hr hc
    constructor
    · rintro ⟨hs, hshown⟩
      cases hs with
      | clause he => exact hclause.1 ⟨he, hshown⟩
    · intro hk
      obtain ⟨he, hshown⟩ := hclause.2 hk
      exact ⟨.clause he, hshown⟩
  | boolean op ms left right ihl ihr =>
    obtain ⟨-, hl, hr'⟩ := h
    obtain ⟨hcms, hcl, hcr⟩ := hc
    have hmodifiers := modifierContents_restored_iff hcms
    constructor
    · rintro ⟨hs, -, hsl, hsr⟩
      cases hs with
      | boolean he hel her =>
        exact ⟨hmodifiers.1 he, (ihl hl hcl).1 ⟨hel, hsl⟩, (ihr hr' hcr).1 ⟨her, hsr⟩⟩
    · rintro ⟨hd, hkl, hkr⟩
      obtain ⟨hel, hsl⟩ := (ihl hl hcl).2 hkl
      obtain ⟨her, hsr⟩ := (ihr hr' hcr).2 hkr
      exact ⟨.boolean (hmodifiers.2 hd) hel her, trivial, hsl, hsr⟩

theorem writable_restoredNode {choice : ServerChoice} {n : Node} (h : n.Writable) :
    (restoredNode r choice n).Writable := by
  induction n with
  | clause c => exact writable_restoredModifiers h
  | boolean op ms left right ihl ihr =>
    obtain ⟨hms, hl, hr⟩ := h
    exact ⟨writable_restoredModifiers hms, ihl hl, ihr hr⟩

/-- A query that was read from text, whose modifiers FQ can carry and whose tree is not too high for
JSON, is read back from FQ with the same query text exactly where all its parts are kept. -/
theorem write_read_write_iff {text : String} {q : Query} (hq : Cql.read .standard text = .ok q)
    (hc : CarriedAll q.root) (h : q.root.height ≤ maxJsonNesting) :
    (∃ q', read .standard (write .standard q) = .ok q' ∧ Cql.write q' = Cql.write q) ↔
      KeptAll q.registry q.root := by
  obtain ⟨m, hm, rfl⟩ := means_of_read hq
  obtain ⟨hroot, hdeclared⟩ := hm.isRead
  rw [List.nil_append] at hroot
  have hr := hasLoweredPrefixes_seeded.registerAll hdeclared
  have hw := hroot.writable
  have hkept := sameContents_restoredNode_iff hr hroot hc
  have hrestored {q' : Query} : read .standard (write .standard _) = .ok q' ↔ _ :=
    read_write_eq_restored_iff (named_of_writable hw) h Layout.isBlank_standard
  constructor
  · rintro ⟨q', hread, hwrite⟩
    obtain ⟨hshown, rfl⟩ := hrestored.1 hread
    have hsame := (write_eq_write_iff (writable_restoredNode hw) hw).1 hwrite
    exact hkept.1 ⟨hsame, hshown⟩
  · intro hk
    obtain ⟨hsame, hshown⟩ := hkept.2 hk
    exact ⟨_, hrestored.2 ⟨hshown, rfl⟩, writeNode_congr hsame⟩

/-- A relation that is the word for a comparator. -/
def mnemonicText : String := "title lt fish"

def mnemonicClause : Clause := .resolve seeded "title" "lt" [] "fish"

def mnemonicQuery : Query := ⟨some mnemonicText, .clause mnemonicClause, seeded, .standard⟩

theorem means_mnemonicText : Means .standard mnemonicText ⟨.clause mnemonicClause, 2, []⟩ := by
  have hread : Reads (.ofText mnemonicText)
      [⟨.bareword, "title", ⟨1, 1, 0⟩, 5⟩, ⟨.bareword, "lt", ⟨1, 7, 6⟩, 8⟩,
        ⟨.bareword, "fish", ⟨1, 10, 9⟩, 13⟩] ⟨[], ⟨1, 14, 13⟩⟩ :=
    .cons rfl (by decide) (.cons rfl (by decide) (.cons rfl (by decide) (.nil _)))
  have htokens := tokenize_eq_ok (congrArg Scan.ending hread.scan_ofText)
    (congrArg Scan.tokens hread.scan_ofText)
  refine ⟨by decide, ⟨_, _, htokens, ?_⟩, by decide, by decide⟩
  exact .query (.indexed (by decide) (by decide +kernel) (.none (by decide))
    (.term (by decide) nofun)) (.stop nofun)

theorem write_read_write_mnemonicQuery : Cql.read .standard mnemonicText = .ok mnemonicQuery ∧
    ¬ ∃ q', read .standard (write .standard mnemonicQuery) = .ok q' ∧
      Cql.write q' = Cql.write mnemonicQuery := by
  have hread : Cql.read .standard mnemonicText = .ok mnemonicQuery :=
    read_of_means means_mnemonicText
  have hcarried : CarriedAll mnemonicQuery.root := fun _ hm => nomatch hm
  refine ⟨hread, fun h => ?_⟩
  have hkept : Kept seeded mnemonicClause :=
    (write_read_write_iff hread hcarried (by decide)).1 h
  rcases hkept.written with hw | ⟨-, hkeeps, -⟩
  · exact absurd hw (by decide +kernel)
  · exact absurd hkeeps (by decide +kernel)

end ContextQuery.Fq
