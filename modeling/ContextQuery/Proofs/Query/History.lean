import ContextQuery.Proofs.Lists
import ContextQuery.Proofs.Query.Registry
import ContextQuery.Proofs.Text.Base64

namespace ContextQuery.Registry
open Text

theorem reverseKey_injective : Function.Injective reverseKey := base64_injective

variable {r : Registry} {ds : List (String × String)} {key identifier : String}

theorem resolve_register (r : Registry) (key identifier k : String) :
    (r.register key identifier).resolve k = if k = key then some identifier else r.resolve k :=
  Entries.lookup_insert key k identifier r.identifiers

theorem prefixFor_register (r : Registry) (key identifier i : String) :
    (r.register key identifier).prefixFor i =
      if i = identifier then some key else r.prefixFor i := by
  have hlookup := Entries.lookup_insert (reverseKey identifier) (reverseKey i) key r.prefixes
  rwa [if_congr reverseKey_injective.eq_iff rfl rfl] at hlookup

theorem resolve_registerAll_of_not_mem (h : key ∉ ds.map Prod.fst) :
    (r.registerAll ds).resolve key = r.resolve key := by
  induction ds generalizing r with
  | nil => rfl
  | cons d ds ih =>
    rw [List.map_cons, List.mem_cons, not_or] at h
    change ((r.register d.1 d.2).registerAll ds).resolve key = _
    rw [ih h.2, resolve_register, if_neg h.1]

theorem prefixFor_registerAll_of_not_mem (h : identifier ∉ ds.map Prod.snd) :
    (r.registerAll ds).prefixFor identifier = r.prefixFor identifier := by
  induction ds generalizing r with
  | nil => rfl
  | cons d ds ih =>
    rw [List.map_cons, List.mem_cons, not_or] at h
    change ((r.register d.1 d.2).registerAll ds).prefixFor identifier = _
    rw [ih h.2, prefixFor_register, if_neg h.1]

section Last
variable {before after : List (String × String)}

/-- The last registration of a prefix says what it stands for. -/
theorem resolve_registerAll_last (h : key ∉ after.map Prod.fst) :
    (r.registerAll (before ++ (key, identifier) :: after)).resolve key = some identifier := by
  rw [← registerAll_append]
  change (((r.registerAll before).register key identifier).registerAll after).resolve key = _
  rw [resolve_registerAll_of_not_mem h, resolve_register, if_pos rfl]

/-- The last registration of an identifier says which prefix it leads back to. -/
theorem prefixFor_registerAll_last (h : identifier ∉ after.map Prod.snd) :
    (r.registerAll (before ++ (key, identifier) :: after)).prefixFor identifier = some key := by
  rw [← registerAll_append]
  change (((r.registerAll before).register key identifier).registerAll after).prefixFor _ = _
  rw [prefixFor_registerAll_of_not_mem h, prefixFor_register, if_pos rfl]

end Last

section Known

theorem isSome_resolve_registerAll (h : (r.resolve key).isSome = true) :
    ((r.registerAll ds).resolve key).isSome = true := by
  by_cases hmem : key ∈ ds.map Prod.fst
  · obtain ⟨before, ⟨k, i⟩, after, rfl, rfl, hafter⟩ := exists_last_of_mem_map hmem
    rw [resolve_registerAll_last hafter]
    rfl
  · rwa [resolve_registerAll_of_not_mem hmem]

/-- The standard prefix stands for something, whatever is declared. -/
theorem isSome_resolve_standardPrefix (ds : List (String × String)) :
    ((seeded.registerAll ds).resolve standardPrefix).isSome = true :=
  isSome_resolve_registerAll (Option.isSome_of_eq_some resolve_standardPrefix_seeded)

/-- What a prefix stands for was registered for it or known before. -/
theorem resolve_or_mem_of_registerAll (h : (r.registerAll ds).resolve key = some identifier) :
    r.resolve key = some identifier ∨ (key, identifier) ∈ ds := by
  by_cases hmem : key ∈ ds.map Prod.fst
  · obtain ⟨before, ⟨k, i⟩, after, rfl, rfl, hafter⟩ := exists_last_of_mem_map hmem
    obtain rfl : i = identifier := Option.some.inj ((resolve_registerAll_last hafter).symm.trans h)
    exact .inr (List.mem_append_right before List.mem_cons_self)
  · rw [resolve_registerAll_of_not_mem hmem] at h
    exact .inl h

/-- An identifier that some prefix of the text stands for is a seeded one or declared. -/
theorem known_of_resolve {front : List (String × String)} (hfront : front ⊆ ds)
    (h : (seeded.registerAll front).resolve key = some identifier) :
    seeded.prefixFor identifier = some key ∨ identifier ∈ ds.map Prod.snd := by
  rcases resolve_or_mem_of_registerAll h with hseeded | hmem
  · exact .inl (prefixFor_seeded hseeded).1
  · exact .inr (List.mem_map_of_mem (hfront hmem))

/-- Is the prefix the one that the identifier was last registered under, if it was at all? -/
def LastUnder (ds : List (String × String)) (key identifier : String) : Prop :=
  ∀ before k after, ds = before ++ (k, identifier) :: after →
    identifier ∉ after.map Prod.snd → k = key

theorem prefixFor_registerAll_iff
    (h : r.prefixFor identifier = some key ∨ identifier ∈ ds.map Prod.snd) :
    (r.registerAll ds).prefixFor identifier = some key ↔ LastUnder ds key identifier := by
  by_cases hmem : identifier ∈ ds.map Prod.snd
  · constructor
    · rintro hkey before k after rfl hafter
      exact Option.some.inj ((prefixFor_registerAll_last hafter).symm.trans hkey)
    · intro hlast
      obtain ⟨before, ⟨k, i⟩, after, rfl, rfl, hafter⟩ := exists_last_of_mem_map hmem
      rw [prefixFor_registerAll_last hafter, hlast before k after rfl hafter]
  · rw [prefixFor_registerAll_of_not_mem hmem]
    refine ⟨?_, fun _ => h.resolve_right hmem⟩
    rintro - before k after rfl -
    simp at hmem

theorem isSome_prefixFor_registerAll
    (h : (r.prefixFor identifier).isSome = true ∨ identifier ∈ ds.map Prod.snd) :
    ((r.registerAll ds).prefixFor identifier).isSome = true := by
  by_cases hmem : identifier ∈ ds.map Prod.snd
  · obtain ⟨before, ⟨k, i⟩, after, rfl, rfl, hafter⟩ := exists_last_of_mem_map hmem
    rw [prefixFor_registerAll_last hafter]
    rfl
  · rw [prefixFor_registerAll_of_not_mem hmem]
    exact h.resolve_right hmem

end Known

/-- Does the identifier, if it leads back to a prefix, lead to one that stands for it? -/
def LeadsBack (r : Registry) (identifier : String) : Prop :=
  ∀ key, r.prefixFor identifier = some key → r.resolve key = some identifier

def KeepsPrefixes (ds : List (String × String)) : Prop :=
  ∀ before key identifier after, ds = before ++ (key, identifier) :: after →
    identifier ∉ after.map Prod.snd → key ∉ after.map Prod.fst

theorem KeepsPrefixes.leadsBack (h : KeepsPrefixes ds) (hid : identifier ∈ ds.map Prod.snd) :
    (r.registerAll ds).LeadsBack identifier := by
  obtain ⟨before, ⟨key, i⟩, after, rfl, rfl, hafter⟩ := exists_last_of_mem_map hid
  intro k hk
  obtain rfl : key = k := Option.some.inj ((prefixFor_registerAll_last hafter).symm.trans hk)
  exact resolve_registerAll_last (h before key i after rfl hafter)

/-- An identifier whose prefix was taken still leads back to it. -/
theorem keepsPrefixes_of_leadsBack
    (h : ∀ identifier ∈ ds.map Prod.snd, (r.registerAll ds).LeadsBack identifier) :
    KeepsPrefixes ds := by
  rintro before key identifier after rfl hafter htaken
  have hback := h identifier (by simp) key (prefixFor_registerAll_last hafter)
  obtain ⟨before', ⟨k, other⟩, after', rfl, rfl, hlast⟩ := exists_last_of_mem_map htaken
  -- Its last registration is behind that of the identifier, so it stands for another one.
  have hshape : before ++ (k, identifier) :: (before' ++ (k, other) :: after') =
      (before ++ (k, identifier) :: before') ++ (k, other) :: after' := by simp
  rw [hshape, resolve_registerAll_last hlast] at hback
  obtain rfl := Option.some.inj hback
  simp at hafter

/-- A prefix that names can be read back with: it is in lower case and has no full stop. -/
def IsPlainPrefix (key : String) : Prop := Lowered key ∧ '.' ∉ key.toList

theorem split_joinPrefix_iff (h : IsPlainPrefix key) (name : String) :
    r.split (joinPrefix key name) = ⟨name, some identifier⟩ ↔
      r.resolve key = some identifier := by
  obtain ⟨hlower, hstop⟩ := h
  rw [split, splitAtStop_joinPrefix hstop]
  dsimp only
  rw [hlower.lowerCase_eq]
  cases hr : r.resolve key with
  | none => simp
  | some i => simp

theorem split_qualify_iff (h : ∀ d ∈ ds, IsPlainPrefix d.1) (hid : identifier ∈ ds.map Prod.snd) :
    (∀ name, (r.registerAll ds).split ((r.registerAll ds).qualify ⟨name, some identifier⟩) =
      ⟨name, some identifier⟩) ↔ (r.registerAll ds).LeadsBack identifier := by
  obtain ⟨before, ⟨key, i⟩, after, rfl, rfl, hafter⟩ := exists_last_of_mem_map hid
  have hkey : (r.registerAll (before ++ (key, i) :: after)).prefixFor i = some key :=
    prefixFor_registerAll_last hafter
  have hplain : IsPlainPrefix key := h (key, i) (by simp)
  constructor
  · intro hnames k hk
    obtain rfl : key = k := Option.some.inj (hkey.symm.trans hk)
    have hsplit := hnames ""
    rwa [qualify_known hkey, split_joinPrefix_iff hplain] at hsplit
  · intro hback name
    rw [qualify_known hkey, split_joinPrefix_iff hplain]
    exact hback key hkey

/-- After any registrations in any registry, the two directions agree on what was registered exactly
where each identifier has kept its prefix. Exactly there, too, names that are written with plain
prefixes are read back in their own context set. -/
theorem leadsBack_registerAll_iff (r : Registry) (ds : List (String × String)) :
    ((∀ identifier ∈ ds.map Prod.snd, (r.registerAll ds).LeadsBack identifier) ↔
      KeepsPrefixes ds) ∧
    ((∀ d ∈ ds, IsPlainPrefix d.1) →
      ((∀ identifier ∈ ds.map Prod.snd, ∀ name,
        (r.registerAll ds).split ((r.registerAll ds).qualify ⟨name, some identifier⟩) =
          ⟨name, some identifier⟩) ↔ KeepsPrefixes ds)) := by
  have hiff : (∀ identifier ∈ ds.map Prod.snd, (r.registerAll ds).LeadsBack identifier) ↔
      KeepsPrefixes ds := ⟨keepsPrefixes_of_leadsBack, fun h _ hid => h.leadsBack hid⟩
  refine ⟨hiff, fun hplain => ?_⟩
  rw [← hiff]
  exact forall₂_congr fun _ hid => split_qualify_iff hplain hid

def reassigned : List (String × String) := [("a", "urn:x"), ("b", "urn:z"), ("a", "urn:y")]

theorem not_leadsBack_registerAll_reassigned :
    (∀ d ∈ reassigned, IsPlainPrefix d.1) ∧
      ¬ (∀ identifier ∈ reassigned.map Prod.snd,
        (empty.registerAll reassigned).LeadsBack identifier) ∧
      ¬ (∀ identifier ∈ reassigned.map Prod.snd, ∀ name,
        (empty.registerAll reassigned).split
            ((empty.registerAll reassigned).qualify ⟨name, some identifier⟩) =
          ⟨name, some identifier⟩) := by
  have hplain : ∀ d ∈ reassigned, IsPlainPrefix d.1 := by
    simp only [reassigned, List.forall_mem_cons, IsPlainPrefix]
    decide
  have htaken : ¬ KeepsPrefixes reassigned := fun h =>
    h [] "a" "urn:x" [("b", "urn:z"), ("a", "urn:y")] rfl (by decide) (by decide)
  obtain ⟨hback, hnames⟩ := leadsBack_registerAll_iff empty reassigned
  exact ⟨hplain, mt hback.1 htaken, mt (hnames hplain).1 htaken⟩

example : (registerAll empty [("a", "urn:x"), ("a", "urn:y")]).prefixFor "urn:x" = some "a" := by
  decide +kernel

end ContextQuery.Registry
