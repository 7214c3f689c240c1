import ContextQuery.Proofs.Query.Registry

namespace ContextQuery
open Text

attribute [ext] QualifiedName

structure QualifiedName.Matches (q q' : QualifiedName) : Prop where
  identifier : q.identifier = q'.identifier
  name : sameIgnoringCase q.name q'.name = true

namespace Registry

section Congruence
variable {s t : String}

theorem toLower_eq_stop_iff {c : Char} : c.toLower = '.' ↔ c = '.' :=
  iff_of_eq (of_toLower (f := (· = '.')) (by decide) c)

/-- A full stop is where it was, whatever becomes of the case of the letters. -/
theorem stop_comp_toLower : (fun c : Char => decide (c ≠ '.')) ∘ Char.toLower =
    fun c => decide (c ≠ '.') := by
  funext c
  exact decide_eq_decide.2 (not_congr toLower_eq_stop_iff)

theorem map_takeWhile_stop (cs : List Char) :
    (cs.takeWhile (· ≠ '.')).map Char.toLower = (cs.map Char.toLower).takeWhile (· ≠ '.') := by
  rw [List.takeWhile_map, stop_comp_toLower]

theorem map_dropWhile_stop (cs : List Char) :
    (cs.dropWhile (· ≠ '.')).map Char.toLower = (cs.map Char.toLower).dropWhile (· ≠ '.') := by
  rw [List.dropWhile_map, stop_comp_toLower]

theorem splitAtStop_congr (h : sameIgnoringCase s t = true) :
    (splitAtStop s = none ∧ splitAtStop t = none) ∨ ∃ key name key' name',
      splitAtStop s = some (key, name) ∧ splitAtStop t = some (key', name') ∧
        sameIgnoringCase key key' = true ∧ sameIgnoringCase name name' = true := by
  have hs := sameIgnoringCase_iff.1 h
  have hkey := map_takeWhile_stop s.toList
  have hrest := map_dropWhile_stop s.toList
  rw [hs, ← map_takeWhile_stop] at hkey
  rw [hs, ← map_dropWhile_stop] at hrest
  unfold splitAtStop
  cases hds : s.toList.dropWhile (· ≠ '.') with
  | nil =>
    rw [hds, List.map_nil, eq_comm, List.map_eq_nil_iff] at hrest
    rw [hrest]
    exact .inl ⟨rfl, rfl⟩
  | cons c cs =>
    cases hdt : t.toList.dropWhile (· ≠ '.') with
    | nil => rw [hds, hdt] at hrest; cases hrest
    | cons d ds =>
      rw [hds, hdt] at hrest
      refine .inr ⟨_, _, _, _, rfl, rfl, ?_, ?_⟩
      · rw [sameIgnoringCase_iff, String.toList_ofList, String.toList_ofList, hkey]
      · rw [sameIgnoringCase_iff, String.toList_ofList, String.toList_ofList]
        exact (List.cons.inj hrest).2

/-- A known prefix is looked up alike in every case of its letters. -/
theorem lowerCase_eq_of_resolve_seeded {key key' identifier : String}
    (h : seeded.resolve (lowerCase key) = some identifier) (hs : sameIgnoringCase key key' = true) :
    lowerCase key' = lowerCase key := by
  have hmap : key'.toList.map Char.toLower = (lowerCase key).toList :=
    (sameIgnoringCase_iff.1 hs).symm.trans (map_toLower_eq_lowerCase_seeded h)
  rw [lowerCase, lowerAfter_eq_map_toLower, hmap, String.ofList_toList]
  rw [hmap]
  exact fun d hd => ((prefixFor_seeded h).2 d hd).1

theorem split_congr (h : sameIgnoringCase s t = true) :
    (seeded.split s).Matches (seeded.split t) := by
  rcases splitAtStop_congr h with ⟨hs, ht⟩ | ⟨key, name, key', name', hs, ht, hkey, hname⟩
  · rw [split_of_none hs, split_of_none ht]
    exact ⟨rfl, h⟩
  · cases hr : seeded.resolve (lowerCase key) with
    | some identifier =>
      have hr' : seeded.resolve (lowerCase key') = some identifier := by
        rw [lowerCase_eq_of_resolve_seeded hr hkey, hr]
      rw [split_of_known hs hr, split_of_known ht hr']
      exact ⟨rfl, hname⟩
    | none =>
      have hr' : seeded.resolve (lowerCase key') = none := by
        rw [Option.eq_none_iff_forall_ne_some]
        intro identifier hr'
        rw [lowerCase_eq_of_resolve_seeded hr' (sameIgnoringCase_symm hkey), hr'] at hr
        cases hr
      rw [split_of_unknown hs hr, split_of_unknown ht hr']
      exact ⟨rfl, h⟩

theorem splitRelation_congr (h : sameIgnoringCase s t = true) :
    (seeded.splitRelation s).Matches (seeded.splitRelation t) := by
  rcases splitAtStop_congr h with ⟨hs, ht⟩ | ⟨key, name, key', name', hs, ht, -⟩
  · rw [splitRelation_of_none hs, splitRelation_of_none ht]
    exact ⟨rfl, h⟩
  · rw [splitRelation_of_some hs, splitRelation_of_some ht]
    exact split_congr h

end Congruence

section Known
variable {key name identifier : String}

theorem splitAtStop_joinPrefix_of_resolve_seeded (h : seeded.resolve key = some identifier)
    (name : String) : splitAtStop (joinPrefix key name) = some (key, name) := by
  have hall : ∀ p ∈ seeded.identifiers, '.' ∉ p.1.toList := by decide
  exact splitAtStop_joinPrefix (hall (key, identifier) (Entries.mem_of_lookup h)) name

/-- A name with a known prefix in front is in the context set of the prefix. -/
theorem split_joinPrefix_seeded (h : seeded.resolve (lowerCase key) = some identifier) :
    seeded.split (joinPrefix (lowerCase key) name) = ⟨name, some identifier⟩ := by
  apply split_of_known (splitAtStop_joinPrefix_of_resolve_seeded h name)
  rwa [(lowered_lowerCase key).lowerCase_eq]

theorem splitRelation_joinPrefix_seeded (h : seeded.resolve (lowerCase key) = some identifier) :
    seeded.splitRelation (joinPrefix (lowerCase key) name) = ⟨name, some identifier⟩ := by
  rw [splitRelation_of_some (splitAtStop_joinPrefix_of_resolve_seeded h name),
    split_joinPrefix_seeded h]

end Known

/-- Is this a way to resolve names in the seeded registry? A name is resolved alike in every case of
its letters, its qualified form is resolved to it again, and what is not split is left as it is. -/
structure IsResolution (resolution : String → QualifiedName) : Prop where
  congr : ∀ {s t : String}, sameIgnoringCase s t = true → (resolution s).Matches (resolution t)
  qualify : ∀ s, resolution (seeded.qualify (resolution s)) = resolution s
  whole : ∀ {s : String}, sameIgnoringCase (resolution s).name s = true → (resolution s).name = s

theorem isResolution_split : IsResolution seeded.split where
  congr := split_congr
  qualify s := by
    rcases split_cases seeded s with hs | ⟨key, name, identifier, -, hr, hs⟩
    · rw [hs]
      exact hs
    · rw [hs, qualify_known (prefixFor_seeded hr).1, split_joinPrefix_seeded hr]
  whole := by
    intro s h
    rcases split_cases seeded s with hs | ⟨key, name, identifier, hstop, -, hs⟩
    · rw [hs]
    · rw [hs, (splitAtStop_eq_some hstop).1, not_sameIgnoringCase_joinPrefix] at h
      cases h

theorem isResolution_splitRelation : IsResolution seeded.splitRelation where
  congr := splitRelation_congr
  qualify s := by
    cases hstop : splitAtStop s with
    | none =>
      have hr : seeded.resolve (lowerCase standardPrefix) = _ := resolve_standardPrefix_seeded
      rw [splitRelation_of_none hstop, resolve_standardPrefix_seeded,
        qualify_known (prefixFor_seeded hr).1, splitRelation_joinPrefix_seeded hr]
    | some p =>
      rw [splitRelation_of_some hstop]
      rcases split_cases seeded s with hs | ⟨key, name, identifier, -, hr, hs⟩
      · rw [hs]
        exact (splitRelation_of_some hstop).trans hs
      · rw [hs, qualify_known (prefixFor_seeded hr).1, splitRelation_joinPrefix_seeded hr]
  whole := by
    intro s h
    cases hstop : splitAtStop s with
    | none => rw [splitRelation_of_none hstop]
    | some p =>
      rw [splitRelation_of_some hstop] at h ⊢
      exact isResolution_split.whole h

/-- A name that is recognised as the choice is the one that the choice resolves to, unless it needs
the prefix without which it is recognised. -/
theorem IsResolution.isChosen_only_iff {resolution : String → QualifiedName}
    (h : IsResolution resolution) (s t : String) :
    (Clause.isChosen seeded (resolution s) t = true → (resolution s).Matches (resolution t)) ↔
      (sameIgnoringCase (resolution s).name t = true →
        resolution (resolution s).name = resolution s) := by
  constructor
  · intro hchosen hname
    have hmatches : (resolution s).Matches (resolution t) :=
      hchosen (by rw [Clause.isChosen, hname, Bool.true_or])
    have hbare := h.congr hname
    -- Neither the choice nor the bare name loses anything in front, so both are left whole.
    have ht : (resolution t).name = t :=
      h.whole (sameIgnoringCase_trans (sameIgnoringCase_symm hmatches.name) hname)
    have hs : (resolution (resolution s).name).name = (resolution s).name :=
      h.whole (sameIgnoringCase_trans hbare.name (sameIgnoringCase_symm hmatches.name))
    have hidentifier : (resolution (resolution s).name).identifier = (resolution s).identifier :=
      hbare.identifier.trans hmatches.identifier.symm
    exact QualifiedName.ext hs hidentifier
  · intro hbare hchosen
    rw [Clause.isChosen, Bool.or_eq_true] at hchosen
    rcases hchosen with hname | hqualified
    · rw [← hbare hname]
      exact h.congr hname
    · rw [← h.qualify s]
      exact h.congr hqualified

/-- What is left out as the server's choice is what the choice resolves to, but for an index or a
relation that is recognised without its prefix and is another name without it. -/
theorem hasChosen_only_iff (choice : ServerChoice) (field relation : String) (ms : List Modifier)
    (term : String) :
    let c := Clause.resolve seeded field relation ms term
    ((c.hasChosenField seeded choice = true → c.field.Matches (seeded.split choice.field)) ↔
      (sameIgnoringCase c.field.name choice.field = true →
        seeded.split c.field.name = c.field)) ∧
    ((c.hasChosenRelation seeded choice = true →
        c.relation.Matches (seeded.splitRelation choice.relation)) ↔
      (sameIgnoringCase c.relation.name choice.relation = true →
        seeded.splitRelation c.relation.name = c.relation)) :=
  ⟨isResolution_split.isChosen_only_iff field choice.field,
    isResolution_splitRelation.isChosen_only_iff relation choice.relation⟩

/-- The title of one context set is left out for a title of none. -/
example : (seeded.split "dc.title" ≠ seeded.split "title") ∧
    Clause.isChosen seeded (seeded.split "dc.title") "title" = true := by decide +kernel

/-- Does the relation name the standard prefix in front of a name that has a full stop itself? -/
def HidesPrefix (relation : String) : Prop :=
  ∃ key name, splitAtStop relation = some (key, name) ∧ lowerCase key = standardPrefix ∧
    splitAtStop name ≠ none

/-- A relation is written with any prefix but the standard one. -/
theorem qualifyRelation_eq_qualify {r : Registry} {q : QualifiedName}
    (h : r.prefixOf q ≠ some standardPrefix) : r.qualifyRelation q = r.qualify q := by
  unfold qualifyRelation qualify
  cases hp : r.prefixOf q with
  | none => rfl
  | some key => exact if_neg fun hkey => h (by rw [hp, hkey])

theorem prefixOf_split_ne {s key name : String} (hs : splitAtStop s = some (key, name))
    (hkey : lowerCase key ≠ standardPrefix) :
    seeded.prefixOf (seeded.split s) ≠ some standardPrefix := by
  cases hr : seeded.resolve (lowerCase key) with
  | none =>
    rw [split_of_unknown hs hr]
    nofun
  | some identifier =>
    rw [split_of_known hs hr]
    change seeded.prefixFor identifier ≠ some standardPrefix
    rw [(prefixFor_seeded hr).1]
    exact fun he => hkey (Option.some.inj he)

/-- A name with a full stop is in no context set or loses its front. -/
theorem splitRelation_eq_standard_iff {name : String} :
    seeded.splitRelation name = ⟨name, seeded.resolve standardPrefix⟩ ↔ splitAtStop name = none := by
  constructor
  · intro he
    rw [Option.eq_none_iff_forall_ne_some]
    intro p hp
    rw [splitRelation_of_some hp, resolve_standardPrefix_seeded] at he
    rcases split_cases seeded name with hs | ⟨key, rest, identifier, hstop, -, hs⟩
    · rw [hs] at he
      cases he
    · rw [hs] at he
      have hrest : rest = joinPrefix key rest :=
        (congrArg QualifiedName.name he).trans (splitAtStop_eq_some hstop).1
      exact joinPrefix_ne key rest hrest
  · exact splitRelation_of_none

/-- A relation that is written without the standard prefix is resolved to itself again, unless what
stands behind that prefix has a full stop: then its front is taken for a prefix. -/
theorem splitRelation_qualifyRelation_iff (field relation : String) (ms : List Modifier)
    (term : String) :
    let c := Clause.resolve seeded field relation ms term
    seeded.splitRelation (seeded.qualifyRelation c.relation) = c.relation ↔
      ¬ HidesPrefix relation := by
  change seeded.splitRelation (seeded.qualifyRelation (seeded.splitRelation relation)) =
    seeded.splitRelation relation ↔ _
  cases hstop : splitAtStop relation with
  | none =>
    have hno : ¬ HidesPrefix relation := by
      rintro ⟨key, name, hs, -⟩
      cases hstop.symm.trans hs
    rw [splitRelation_of_none hstop, qualifyRelation_standard]
    exact iff_of_true (splitRelation_of_none hstop) hno
  | some p =>
    obtain ⟨key, name⟩ := p
    have hhides : HidesPrefix relation ↔
        lowerCase key = standardPrefix ∧ splitAtStop name ≠ none := by
      simp [HidesPrefix, hstop]
    by_cases hkey : lowerCase key = standardPrefix
    · have hrelation : seeded.splitRelation relation = ⟨name, seeded.resolve standardPrefix⟩ := by
        rw [splitRelation_of_some hstop, resolve_standardPrefix_seeded]
        exact split_of_known hstop (by rw [hkey, resolve_standardPrefix_seeded])
      rw [hrelation, qualifyRelation_standard, splitRelation_eq_standard_iff, hhides]
      simp [hkey]
    · have hwritten : seeded.qualifyRelation (seeded.splitRelation relation) =
          seeded.qualify (seeded.splitRelation relation) := by
        rw [splitRelation_of_some hstop]
        exact qualifyRelation_eq_qualify (prefixOf_split_ne hstop hkey)
      rw [hwritten]
      exact iff_of_true (isResolution_splitRelation.qualify relation) fun hh => hkey (hhides.1 hh).1

/-- A relation of the standard context set comes back in another one. -/
example : seeded.splitRelation (seeded.qualifyRelation (seeded.splitRelation "cql.dc.any")) =
    seeded.splitRelation "dc.any" := by decide +kernel

end Registry

end ContextQuery
