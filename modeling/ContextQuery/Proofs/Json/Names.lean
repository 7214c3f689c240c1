import ContextQuery.Proofs.Json.Nesting

namespace ContextQuery.Json

/-- Does no object in the value have a name twice? -/
inductive HasDistinctNames : Json → Prop
  | null : HasDistinctNames .null
  | bool (b : Bool) : HasDistinctNames (.bool b)
  | number (n : Number) : HasDistinctNames (.number n)
  | string (s : String) : HasDistinctNames (.string s)
  | array {items : List Json} (each : ∀ v ∈ items, HasDistinctNames v) :
    HasDistinctNames (.array items)
  | object {members : List (String × Json)} (names : (members.map Prod.fst).Nodup)
    (each : ∀ m ∈ members, HasDistinctNames m.2) : HasDistinctNames (.object members)

structure AreDistinct (members : List (String × Json)) : Prop where
  names : (members.map Prod.fst).Nodup
  each : ∀ m ∈ members, HasDistinctNames m.2

def Level.IsDistinct : Level → Prop
  | .array items => ∀ v ∈ items, v.HasDistinctNames
  | .object members _ => AreDistinct members

def Place.IsDistinct : Place → Prop
  | .after v => v.HasDistinctNames
  | .name members => AreDistinct members
  | .colon members _ => AreDistinct members
  | _ => True

def AllDistinct (s : Place × List Level) : Prop := s.1.IsDistinct ∧ ∀ level ∈ s.2, level.IsDistinct

theorem areDistinct_nil : AreDistinct [] := ⟨List.nodup_nil, nofun⟩

theorem HasDistinctNames.members {members : List (String × Json)}
    (h : (Json.object members).HasDistinctNames) : AreDistinct members := by
  cases h with
  | object names each => exact ⟨names, each⟩

variable {limit : Option Nat} {levels : List Level} {s : Place × List Level} {v : Json}

theorem AreDistinct.add {members : List (String × Json)} (h : AreDistinct members)
    (hv : v.HasDistinctNames) (name : String) :
    AreDistinct (Repeats.replaced.add name v members) := by
  refine ⟨Entries.nodup_keys_insert h.names name v, fun m hm => ?_⟩
  rcases Entries.mem_insert hm with rfl | hm
  · exact hv
  · exact h.each m hm

/-- A scalar is no array and no object. -/
theorem hasDistinctNames_of_isFlat (h : (Lexeme.scalar v).IsFlat) : v.HasDistinctNames := by
  cases v with
  | null => exact .null
  | bool b => exact .bool b
  | number n => exact .number n
  | string s => exact .string s
  | array items => exact absurd (h 0) id
  | object members => exact absurd (h 0) id

theorem eq_of_enter? {place place' : Place} (h : enter? limit levels place = some place') :
    place' = place := by
  unfold enter? at h
  split at h
  · exact (Option.some.inj (Option.ite_none_right_eq_some.1 h).2).symm
  · exact (Option.some.inj h).symm

theorem allDistinct_begin? {l : Lexeme} (hlevels : ∀ level ∈ levels, level.IsDistinct)
    (hl : l.IsFlat) (h : begin? limit levels l = some s) : AllDistinct s := by
  cases l with
  | scalar v =>
    cases h
    exact ⟨hasDistinctNames_of_isFlat hl, hlevels⟩
  | string text =>
    cases h
    exact ⟨.string text, hlevels⟩
  | openBracket =>
    obtain ⟨place, henter, rfl⟩ := Option.map_eq_some_iff.1 h
    obtain rfl := eq_of_enter? henter
    exact ⟨trivial, List.forall_mem_cons.2 ⟨nofun, hlevels⟩⟩
  | openBrace =>
    obtain ⟨place, henter, rfl⟩ := Option.map_eq_some_iff.1 h
    obtain rfl := eq_of_enter? henter
    exact ⟨trivial, hlevels⟩
  | _ => cases h

theorem allDistinct_close? {l : Lexeme} (hv : v.HasDistinctNames)
    (hlevels : ∀ level ∈ levels, level.IsDistinct)
    (h : close? .replaced v levels l = some s) : AllDistinct s := by
  unfold close? at h
  split at h
  · cases h
    obtain ⟨hlevel, hrest⟩ := List.forall_mem_cons.1 hlevels
    exact ⟨trivial, List.forall_mem_cons.2 ⟨List.forall_mem_cons.2 ⟨hv, hlevel⟩, hrest⟩⟩
  · cases h
    obtain ⟨hlevel, hrest⟩ := List.forall_mem_cons.1 hlevels
    refine ⟨.array fun u hu => ?_, hrest⟩
    exact List.forall_mem_cons.2 ⟨hv, hlevel⟩ u (List.mem_reverse.1 hu)
  · next members name levels =>
    cases h
    obtain ⟨hlevel, hrest⟩ := List.forall_mem_cons.1 hlevels
    exact ⟨AreDistinct.add hlevel hv name, hrest⟩
  · next members name levels =>
    cases h
    obtain ⟨hlevel, hrest⟩ := List.forall_mem_cons.1 hlevels
    have hmembers : AreDistinct (Repeats.replaced.add name v members) :=
      AreDistinct.add hlevel hv name
    exact ⟨.object hmembers.names hmembers.each, hrest⟩
  · cases h

/-- A step of the reader repeats no name. -/
theorem AllDistinct.step? {place : Place} {l : Lexeme} (hs : AllDistinct (place, levels))
    (hl : l.IsFlat) (h : step? limit .replaced place levels l = some s) : AllDistinct s := by
  obtain ⟨hplace, hlevels⟩ := hs
  unfold Json.step? at h
  split at h
  · exact allDistinct_begin? hlevels hl h
  · cases h
    exact ⟨.array nofun, (List.forall_mem_cons.1 hlevels).2⟩
  · exact allDistinct_begin? hlevels hl h
  · cases h
    exact ⟨.object List.nodup_nil nofun, hlevels⟩
  · cases h
    exact ⟨areDistinct_nil, hlevels⟩
  · cases h
    exact ⟨hplace, hlevels⟩
  · cases h
    exact ⟨trivial, List.forall_mem_cons.2 ⟨hplace, hlevels⟩⟩
  · exact allDistinct_close? hplace hlevels h
  · cases h

theorem AllDistinct.assemble? {place : Place} {ls : List Lexeme}
    (hs : AllDistinct (place, levels)) (hls : ∀ l ∈ ls, l.IsFlat)
    (h : assemble? limit .replaced place levels ls = some v) : v.HasDistinctNames := by
  induction ls generalizing place levels with
  | nil =>
    unfold Json.assemble? at h
    split at h
    · cases h
      exact hs.1
    · cases h
    · next heq => cases heq
  | cons l ls ih =>
    obtain ⟨hl, hls⟩ := List.forall_mem_cons.1 hls
    rw [Json.assemble?] at h
    obtain ⟨⟨place', levels'⟩, hstep, hrest⟩ := Option.bind_eq_some_iff.1 h
    exact ih (hs.step? hl hstep) hls hrest

/-- A value that is read in this way has no name twice in an object. -/
theorem hasDistinctNames_of_read? {text : String} (h : read? limit .replaced text = some v) :
    v.HasDistinctNames := by
  obtain ⟨ls, hls, hv⟩ := Option.bind_eq_some_iff.1 h
  have hstart : AllDistinct (.value, []) := ⟨trivial, nofun⟩
  exact hstart.assemble? (Lexeme.isFlat_scan? hls) hv

end ContextQuery.Json
