import ContextQuery.Proofs.Entries
import ContextQuery.Proofs.Text.LowerCase
import ContextQuery.Query.Clause

namespace ContextQuery
open Text

namespace Registry

def isStandard (relation : String) : Bool :=
  (splitAtStop relation).any fun p => p.1 == standardPrefix

theorem splitAtStop_joinPrefix {key : String} (h : '.' ∉ key.toList) (name : String) :
    splitAtStop (joinPrefix key name) = some (key, name) := by
  have hkey : ∀ c ∈ key.toList, (decide (c ≠ '.')) = true := fun c hc =>
    decide_eq_true fun he => h (he ▸ hc)
  have hs : (joinPrefix key name).toList = key.toList ++ '.' :: name.toList := by
    simp [joinPrefix]
  rw [splitAtStop, hs, List.dropWhile_append_of_pos hkey, List.takeWhile_append_of_pos hkey]
  simp

theorem splitAtStop_eq_some {s key name : String} (h : splitAtStop s = some (key, name)) :
    s = joinPrefix key name ∧ '.' ∉ key.toList := by
  unfold splitAtStop at h
  split at h
  · cases h
  · next c rest hdrop =>
    have hstop := List.head?_dropWhile_not (fun c => decide (c ≠ '.')) s.toList
    rw [hdrop] at hstop
    obtain rfl : c = '.' := by simpa using hstop
    cases h
    refine ⟨?_, fun hmem => ?_⟩
    · rw [joinPrefix, ← String.toList_inj]
      simp only [String.toList_append, String.toList_ofList]
      rw [List.append_assoc, show ".".toList ++ rest = '.' :: rest from rfl, ← hdrop,
        List.takeWhile_append_dropWhile]
    · rw [String.toList_ofList] at hmem
      simpa using List.all_eq_true.1 List.all_takeWhile _ hmem

theorem stop_mem_of_splitAtStop {s : String} {p : String × String} (h : splitAtStop s = some p) :
    '.' ∈ s.toList := by
  rw [(splitAtStop_eq_some h).1]
  simp [joinPrefix]

theorem not_sameIgnoringCase_joinPrefix (key name : String) :
    sameIgnoringCase name (joinPrefix key name) = false := by
  rw [Bool.eq_false_iff]
  intro h
  have hlength := length_eq_of_sameIgnoringCase h
  simp only [joinPrefix, String.toList_append, List.length_append] at hlength
  have hstop : ".".toList.length = 1 := rfl
  omega

theorem joinPrefix_ne (key name : String) : name ≠ joinPrefix key name := by
  intro h
  have hne := not_sameIgnoringCase_joinPrefix key name
  rw [← h, sameIgnoringCase_refl] at hne
  cases hne

theorem isStandard_iff {relation : String} :
    isStandard relation = true ↔ ∃ name, relation = joinPrefix standardPrefix name := by
  constructor
  · intro h
    cases hs : splitAtStop relation with
    | none => simp [isStandard, hs] at h
    | some p =>
      obtain ⟨key, name⟩ := p
      obtain rfl : key = standardPrefix := by simpa [isStandard, hs] using h
      exact ⟨name, (splitAtStop_eq_some hs).1⟩
  · rintro ⟨name, rfl⟩
    rw [isStandard, splitAtStop_joinPrefix (by decide)]
    rfl

theorem lowered_joinPrefix {key name : String} :
    Lowered (joinPrefix key name) ↔ Lowered key ∧ Lowered name := by
  have hstop : IsLower '.' := by decide
  simp only [Lowered, joinPrefix, String.toList_append]
  constructor
  · intro h
    exact ⟨fun c hc => h c (by simp [hc]), fun c hc => h c (by simp [hc])⟩
  · rintro ⟨hk, hn⟩ c hc
    simp only [List.mem_append] at hc
    rcases hc with (hc | hc) | hc
    · exact hk c hc
    · rw [List.mem_singleton.1 hc]
      exact hstop
    · exact hn c hc

def HasLoweredPrefixes (r : Registry) : Prop := ∀ p ∈ r.prefixes, Lowered p.2

theorem HasLoweredPrefixes.register {r : Registry} (h : r.HasLoweredPrefixes) {key : String}
    (hkey : Lowered key) (identifier : String) :
    (r.register key identifier).HasLoweredPrefixes := by
  intro p hp
  rcases Entries.mem_insert hp with rfl | hp
  · exact hkey
  · exact h p hp

theorem HasLoweredPrefixes.registerAll {r : Registry} (h : r.HasLoweredPrefixes)
    {ds : List (String × String)} (hds : ∀ d ∈ ds, Lowered d.1) :
    (r.registerAll ds).HasLoweredPrefixes := by
  induction ds generalizing r with
  | nil => exact h
  | cons d ds ih =>
    obtain ⟨hd, hrest⟩ := List.forall_mem_cons.1 hds
    exact ih (h.register hd d.2) hrest

theorem hasLoweredPrefixes_seeded : seeded.HasLoweredPrefixes := by
  have holder : ∀ p ∈ olderIdentifiers, Lowered p.1 := by decide
  have hsets : ∀ p ∈ contextSets, Lowered p.1 := by decide
  refine HasLoweredPrefixes.registerAll (fun p hp => ?_) hsets
  obtain ⟨p', hp', rfl⟩ := List.mem_map.1 hp
  exact holder p' hp'

theorem HasLoweredPrefixes.prefixFor {r : Registry} (h : r.HasLoweredPrefixes)
    {key identifier : String} (hk : r.prefixFor identifier = some key) : Lowered key :=
  h _ (Entries.mem_of_lookup hk)

/-- The seeded identifiers lead back to their prefixes, which are made of letters that only ASCII
has. -/
theorem prefixFor_seeded {key identifier : String} (h : seeded.resolve key = some identifier) :
    seeded.prefixFor identifier = some key ∧ ∀ c ∈ key.toList, c.toNat < 0x80 ∧ c ≠ 'k' := by
  have hall : ∀ p ∈ seeded.identifiers, seeded.prefixFor p.2 = some p.1 ∧
      (p.1.toList.all fun c => c.toNat < 0x80 && c != 'k') = true := by decide +kernel
  obtain ⟨hback, hascii⟩ := hall (key, identifier) (Entries.mem_of_lookup h)
  refine ⟨hback, fun c hc => ?_⟩
  simpa using List.all_eq_true.1 hascii c hc

theorem resolve_standardPrefix_seeded :
    seeded.resolve standardPrefix = some "info:srw/cql-context-set/1/cql-v1.2" := by decide +kernel

section Split
variable {r : Registry} {s key name : String}

theorem split_of_none (h : splitAtStop s = none) : r.split s = ⟨s, none⟩ := by
  simp only [split, h]

theorem split_of_unknown (h : splitAtStop s = some (key, name))
    (hr : r.resolve (lowerCase key) = none) : r.split s = ⟨s, none⟩ := by
  simp only [split, h, hr]

theorem split_of_known {identifier : String} (h : splitAtStop s = some (key, name))
    (hr : r.resolve (lowerCase key) = some identifier) : r.split s = ⟨name, some identifier⟩ := by
  simp only [split, h, hr]

theorem splitRelation_of_none (h : splitAtStop s = none) :
    r.splitRelation s = ⟨s, r.resolve standardPrefix⟩ := by
  simp only [splitRelation, h]

theorem splitRelation_of_some (h : splitAtStop s = some (key, name)) :
    r.splitRelation s = r.split s := by
  simp only [splitRelation, h]

/-- What a name is split into: the whole of it, or the part behind a known prefix. -/
theorem split_cases (r : Registry) (s : String) : r.split s = ⟨s, none⟩ ∨
    ∃ key name identifier, splitAtStop s = some (key, name) ∧
      r.resolve (lowerCase key) = some identifier ∧ r.split s = ⟨name, some identifier⟩ := by
  cases h : splitAtStop s with
  | none => exact .inl (split_of_none h)
  | some p =>
    obtain ⟨key, name⟩ := p
    cases hr : r.resolve (lowerCase key) with
    | none => exact .inl (split_of_unknown h hr)
    | some identifier => exact .inr ⟨key, name, identifier, rfl, hr, split_of_known h hr⟩

end Split

/-- Is what stands in front of the first full stop, if there is one, in lower case? -/
def HasLoweredPrefix (s : String) : Prop :=
  ∀ key name, splitAtStop s = some (key, name) → Lowered key

theorem hasLoweredPrefix_of_lowered {s : String} (h : Lowered s) : HasLoweredPrefix s := by
  intro key name hs
  rw [(splitAtStop_eq_some hs).1] at h
  exact (lowered_joinPrefix.1 h).1

theorem qualify_known {r : Registry} {key name identifier : String}
    (h : r.prefixFor identifier = some key) :
    r.qualify ⟨name, some identifier⟩ = joinPrefix key name := by
  simp only [qualify, prefixOf, Option.bind_some, h]

theorem qualifyRelation_known {r : Registry} {key name identifier : String}
    (h : r.prefixFor identifier = some key) :
    r.qualifyRelation ⟨name, some identifier⟩ =
      if key = standardPrefix then name else joinPrefix key name := by
  simp only [qualifyRelation, prefixOf, Option.bind_some, h]

/-- Only the front of the prefix may stand in front of the first full stop. -/
theorem hasLoweredPrefix_joinPrefix {key : String} (h : Lowered key) (name : String) :
    HasLoweredPrefix (joinPrefix key name) := by
  intro key' name' hs
  have htake : key'.toList = (joinPrefix key name).toList.takeWhile (· ≠ '.') := by
    unfold splitAtStop at hs
    split at hs
    · cases hs
    · cases hs
      exact String.toList_ofList
  have hlist : (joinPrefix key name).toList = key.toList ++ '.' :: name.toList := by
    simp [joinPrefix]
  intro c hc
  apply h
  rw [htake, hlist, List.takeWhile_append] at hc
  -- If the prefix has no full stop of its own, what is taken ends with it.
  split at hc
  · simpa using hc
  · exact (List.takeWhile_sublist _).subset hc

section Qualify
variable {r : Registry} {q : QualifiedName}

/-- A qualified name is the name alone or has a prefix in front. -/
theorem qualify_cases (h : r.HasLoweredPrefixes) (q : QualifiedName) : r.qualify q = q.name ∨
    ∃ key, Lowered key ∧ r.qualify q = joinPrefix key q.name := by
  cases hp : r.prefixOf q with
  | none => exact .inl (by simp only [qualify, hp])
  | some key =>
    obtain ⟨identifier, -, hk⟩ := Option.bind_eq_some_iff.1 hp
    exact .inr ⟨key, h.prefixFor hk, by simp only [qualify, hp]⟩

theorem lowered_qualify (h : r.HasLoweredPrefixes) (hq : Lowered q.name) :
    Lowered (r.qualify q) := by
  rcases qualify_cases h q with hn | ⟨key, hk, hn⟩
  · rwa [hn]
  · rw [hn]
    exact lowered_joinPrefix.2 ⟨hk, hq⟩

theorem lowered_qualifyRelation (h : r.HasLoweredPrefixes) (hq : Lowered q.name) :
    Lowered (r.qualifyRelation q) := by
  have hqualify := lowered_qualify h hq
  unfold qualify at hqualify
  unfold qualifyRelation
  split at hqualify
  · split
    · exact hq
    · exact hqualify
  · exact hqualify

theorem hasLoweredPrefix_qualify (h : r.HasLoweredPrefixes) (hq : HasLoweredPrefix q.name) :
    HasLoweredPrefix (r.qualify q) := by
  rcases qualify_cases h q with hn | ⟨key, hk, hn⟩
  · rwa [hn]
  · rw [hn]
    exact hasLoweredPrefix_joinPrefix hk q.name

theorem lowered_split {s : String} (hs : Lowered s) : Lowered (r.split s).name := by
  rcases split_cases r s with h | ⟨key, name, identifier, hstop, -, h⟩
  · rwa [h]
  · rw [(splitAtStop_eq_some hstop).1] at hs
    rw [h]
    exact (lowered_joinPrefix.1 hs).2

theorem lowered_splitRelation {s : String} (hs : Lowered s) : Lowered (r.splitRelation s).name := by
  cases hstop : splitAtStop s with
  | none => rwa [splitRelation_of_none hstop]
  | some p =>
    rw [splitRelation_of_some hstop]
    exact lowered_split hs

end Qualify

theorem qualify_split_seeded {s : String} (h : HasLoweredPrefix s) :
    seeded.qualify (seeded.split s) = s := by
  rcases split_cases seeded s with hs | ⟨key, name, identifier, hstop, hr, hs⟩
  · rw [hs]
    rfl
  · rw [(h key name hstop).lowerCase_eq] at hr
    rw [hs, qualify_known (prefixFor_seeded hr).1, ← (splitAtStop_eq_some hstop).1]

/-- A relation loses the standard prefix. -/
theorem qualifyRelation_of_standard {s name : String}
    (h : splitAtStop s = some (standardPrefix, name)) :
    seeded.qualifyRelation (seeded.splitRelation s) = name := by
  have hr : seeded.resolve (lowerCase standardPrefix) = _ := resolve_standardPrefix_seeded
  rw [splitRelation_of_some h, split_of_known h hr, qualifyRelation_known (prefixFor_seeded hr).1]
  rfl

/-- The standard prefix is not written. -/
theorem qualifyRelation_standard (name : String) :
    seeded.qualifyRelation ⟨name, seeded.resolve standardPrefix⟩ = name := by
  rw [resolve_standardPrefix_seeded,
    qualifyRelation_known (prefixFor_seeded resolve_standardPrefix_seeded).1, if_pos rfl]

theorem qualifyRelation_splitRelation_seeded {s : String} (h : HasLoweredPrefix s)
    (hs : isStandard s = false) : seeded.qualifyRelation (seeded.splitRelation s) = s := by
  cases hstop : splitAtStop s with
  | none =>
    rw [splitRelation_of_none hstop, qualifyRelation_standard]
  | some p =>
    obtain ⟨key, name⟩ := p
    rw [splitRelation_of_some hstop]
    rcases split_cases seeded s with hsplit | ⟨key', name', identifier, hstop', hr, hsplit⟩
    · rw [hsplit]
      rfl
    · have hkey : key' ≠ standardPrefix := by
        simpa [isStandard, hstop'] using hs
      rw [(h key' name' hstop').lowerCase_eq] at hr
      rw [hsplit, qualifyRelation_known (prefixFor_seeded hr).1, if_neg hkey,
        ← (splitAtStop_eq_some hstop').1]

/-- The prefix that was looked up is in ASCII without `k`, so lowering met nothing else. -/
theorem map_toLower_eq_lowerCase_seeded {key identifier : String}
    (h : seeded.resolve (lowerCase key) = some identifier) :
    key.toList.map Char.toLower = (lowerCase key).toList := by
  have hlist : (lowerCase key).toList = lowerAfter [] key.toList := String.toList_ofList
  rw [hlist]
  apply map_toLower_eq
  rw [← hlist]
  exact (prefixFor_seeded h).2

/-- A known prefix is the lower-case form of nothing but itself in some case of its letters. -/
theorem map_toLower_of_resolve_seeded {key identifier : String}
    (h : seeded.resolve (lowerCase key) = some identifier) :
    key.toList.map Char.toLower = (lowerCase key).toList.map Char.toLower := by
  have hself : lowerCase (lowerCase key) = lowerCase key := (lowered_lowerCase key).lowerCase_eq
  have hlower : (lowerCase key).toList.map Char.toLower = (lowerCase (lowerCase key)).toList :=
    map_toLower_eq_lowerCase_seeded (by rwa [hself])
  rw [hlower, hself, map_toLower_eq_lowerCase_seeded h]

/-- A name that has been split is still the one that it was. -/
theorem isChosen_split_seeded (s : String) :
    Clause.isChosen seeded (seeded.split s) s = true := by
  rcases split_cases seeded s with hs | ⟨key, name, identifier, hstop, hr, hs⟩
  · rw [hs, Clause.isChosen, sameIgnoringCase_refl, Bool.true_or]
  · have hsame : sameIgnoringCase (joinPrefix (lowerCase key) name) s = true := by
      rw [(splitAtStop_eq_some hstop).1]
      simp [sameIgnoringCase, joinPrefix, map_toLower_of_resolve_seeded hr]
    rw [hs, Clause.isChosen, qualify_known (prefixFor_seeded hr).1, hsame, Bool.or_true]

theorem isChosen_splitRelation_seeded (s : String) :
    Clause.isChosen seeded (seeded.splitRelation s) s = true := by
  cases hstop : splitAtStop s with
  | none => rw [splitRelation_of_none hstop, Clause.isChosen, sameIgnoringCase_refl, Bool.true_or]
  | some p =>
    rw [splitRelation_of_some hstop]
    exact isChosen_split_seeded s

end Registry

end ContextQuery
