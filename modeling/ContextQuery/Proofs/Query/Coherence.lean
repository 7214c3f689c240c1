import ContextQuery.Proofs.Query.LastWrite

namespace ContextQuery.Registry
open Text

/-- Does no prefix of the log stand for two identifiers? -/
def NeverRebound (log : List (String × String)) : Prop :=
  ∀ d ∈ log, ∀ d' ∈ log, d.1 = d'.1 → d.2 = d'.2

/-- Can names be read back with each known prefix, and does what a prefix stands for lead back to
one that stands for it? -/
structure Coherent (r : Registry) : Prop where
  plain : ∀ key identifier, r.resolve key = some identifier → IsPlainPrefix key
  back : ∀ key identifier, r.resolve key = some identifier →
    ∃ k, r.prefixFor identifier = some k ∧ r.resolve k = some identifier

theorem coherent_seeded : seeded.Coherent where
  plain key identifier h := by
    have hall : ∀ d ∈ contextSets, Lowered d.1 ∧ '.' ∉ d.1.toList := by decide
    exact hall (key, identifier) ((resolve_seeded_iff key identifier).1 h)
  back key _ h := ⟨key, (prefixFor_seeded h).1, h⟩

section Register
variable {r : Registry} {key identifier : String} {ds : List (String × String)}

/-- A registration of a new prefix, or of a known one for what it stands for. -/
theorem Coherent.register (h : r.Coherent) (hkey : IsPlainPrefix key)
    (hkept : ∀ i, r.resolve key = some i → i = identifier) :
    (r.register key identifier).Coherent where
  plain k i hk := by
    rw [resolve_register] at hk
    split at hk
    · next he => rwa [he]
    · exact h.plain k i hk
  back k i hk := by
    by_cases hi : i = identifier
    · subst hi
      exact ⟨key, by rw [prefixFor_register, if_pos rfl], by rw [resolve_register, if_pos rfl]⟩
    · have hne : k ≠ key := by
        rintro rfl
        rw [resolve_register, if_pos rfl] at hk
        exact hi (Option.some.inj hk).symm
      rw [resolve_register, if_neg hne] at hk
      obtain ⟨k', hback, hresolve⟩ := h.back k i hk
      -- The prefix it leads back to stands for it, so it is not the one that is registered.
      have hne' : k' ≠ key := by
        rintro rfl
        exact hi (hkept i hresolve)
      exact ⟨k', by rw [prefixFor_register, if_neg hi, hback],
        by rw [resolve_register, if_neg hne', hresolve]⟩

theorem Coherent.registerAll (h : r.Coherent) (hplain : ∀ d ∈ ds, IsPlainPrefix d.1)
    (hkept : ∀ d ∈ ds, ∀ i, r.resolve d.1 = some i → i = d.2) (hnever : NeverRebound ds) :
    (r.registerAll ds).Coherent := by
  induction ds generalizing r with
  | nil => exact h
  | cons d ds ih =>
    obtain ⟨hd, hrest⟩ := List.forall_mem_cons.1 hplain
    obtain ⟨hkeptd, hkeptrest⟩ := List.forall_mem_cons.1 hkept
    refine ih (h.register hd hkeptd) hrest (fun e he i hi => ?_) fun e he e' he' =>
      hnever e (List.mem_cons_of_mem d he) e' (List.mem_cons_of_mem d he')
    rw [resolve_register] at hi
    split at hi
    · next hkey =>
      rw [← Option.some.inj hi]
      exact hnever d List.mem_cons_self e (List.mem_cons_of_mem d he) hkey.symm
    · exact hkeptrest e he i hi

end Register

section Names
variable {r : Registry} {s key name identifier : String}

/-- A name of a known context set is qualified with a prefix that brings it back. -/
theorem Coherent.requalify (h : r.Coherent) (hr : r.resolve key = some identifier)
    (name : String) : ∃ k, r.qualify ⟨name, some identifier⟩ = joinPrefix k name ∧
      r.split (joinPrefix k name) = ⟨name, some identifier⟩ ∧
      r.splitRelation (joinPrefix k name) = ⟨name, some identifier⟩ := by
  obtain ⟨k, hback, hresolve⟩ := h.back key identifier hr
  have hplain : IsPlainPrefix k := h.plain k identifier hresolve
  have hsplit : r.split (joinPrefix k name) = ⟨name, some identifier⟩ :=
    (split_joinPrefix_iff hplain name).2 hresolve
  refine ⟨k, qualify_known hback, hsplit, ?_⟩
  rwa [splitRelation_of_some (splitAtStop_joinPrefix hplain.2 name)]

theorem Coherent.split_qualify (h : r.Coherent) (s : String) :
    r.split (r.qualify (r.split s)) = r.split s := by
  rcases split_cases r s with hs | ⟨key, name, identifier, -, hr, hs⟩
  · rw [hs]
    exact hs
  · obtain ⟨k, hqualify, hsplit, -⟩ := h.requalify hr name
    rw [hs, hqualify, hsplit]

theorem Coherent.splitRelation_qualify (h : r.Coherent) (s : String) :
    r.splitRelation (r.qualify (r.splitRelation s)) = r.splitRelation s := by
  cases hstop : splitAtStop s with
  | none =>
    -- The relation belongs to the standard context set, if there is one.
    have hs := splitRelation_of_none (r := r) hstop
    cases hr : r.resolve standardPrefix with
    | none =>
      rw [hr] at hs
      rw [hs]
      exact hs
    | some identifier =>
      obtain ⟨k, hqualify, -, hsplit⟩ := h.requalify hr s
      rw [hs, hr, hqualify, hsplit]
  | some p =>
    have hsame : r.splitRelation s = r.split s := splitRelation_of_some hstop
    rw [hsame]
    rcases split_cases r s with hs | ⟨key, name, identifier, -, hr, hs⟩
    · rw [hs]
      exact hsame.trans hs
    · obtain ⟨k, hqualify, -, hsplit⟩ := h.requalify hr name
      rw [hs, hqualify, hsplit]

end Names

/-- As long as no prefix, the seeded ones included, comes to stand for another identifier, a name
that has been resolved and qualified is resolved to the same again, whichever of the prefixes of its
context set it is qualified with. -/
theorem split_qualify_of_neverRebound {ds : List (String × String)}
    (hnever : NeverRebound (contextSets ++ ds))
    (hplain : ∀ d ∈ ds, '.' ∉ d.1.toList ∧ lowerCase d.1 = d.1) (s : String) (q : QualifiedName) :
    let r := seeded.registerAll ds
    (r.split s = q → r.split (r.qualify q) = q) ∧
      (r.splitRelation s = q → r.splitRelation (r.qualify q) = q) := by
  have hcoherent : (seeded.registerAll ds).Coherent := by
    refine coherent_seeded.registerAll (fun d hd => ?_) (fun d hd i hi => ?_)
      fun d hd d' hd' => hnever d (List.mem_append_right _ hd) d' (List.mem_append_right _ hd')
    · obtain ⟨hstop, hlower⟩ := hplain d hd
      exact ⟨hlower ▸ lowered_lowerCase d.1, hstop⟩
    · have hset : (d.1, i) ∈ contextSets := (resolve_seeded_iff d.1 i).1 hi
      exact hnever (d.1, i) (List.mem_append_left ds hset) d (List.mem_append_right _ hd) rfl
  constructor
  · rintro rfl
    exact hcoherent.split_qualify s
  · rintro rfl
    exact hcoherent.splitRelation_qualify s

def aliased : List (String × String) :=
  [("t", "info:srw/cql-context-set/1/dc-v1.1"), ("", "urn:é"),
    ("std", "info:srw/cql-context-set/1/cql-v1.2"), ("t", "info:srw/cql-context-set/1/dc-v1.1")]

theorem split_qualify_of_neverRebound_aliased :
    NeverRebound (contextSets ++ aliased) ∧
      (∀ d ∈ aliased, '.' ∉ d.1.toList ∧ lowerCase d.1 = d.1) ∧
      let r := seeded.registerAll aliased
      let title : QualifiedName := ⟨"a.b", some "info:srw/cql-context-set/1/dc-v1.1"⟩
      let relation : QualifiedName := ⟨"any", some "info:srw/cql-context-set/1/cql-v1.2"⟩
      r.split "DC.a.b" = title ∧ r.qualify title = "t.a.b" ∧ r.split (r.qualify title) = title ∧
        r.splitRelation "any" = relation ∧ r.qualify relation = "std.any" ∧
        r.splitRelation (r.qualify relation) = relation := by
  have hnever : NeverRebound (contextSets ++ aliased) := by
    unfold NeverRebound
    decide +kernel
  have hplain : ∀ d ∈ aliased, '.' ∉ d.1.toList ∧ lowerCase d.1 = d.1 := by decide +kernel
  have hresolved : (seeded.registerAll aliased).split "DC.a.b" =
        ⟨"a.b", some "info:srw/cql-context-set/1/dc-v1.1"⟩ ∧
      (seeded.registerAll aliased).splitRelation "any" =
        ⟨"any", some "info:srw/cql-context-set/1/cql-v1.2"⟩ := by decide +kernel
  exact ⟨hnever, hplain, hresolved.1, by decide +kernel,
    (split_qualify_of_neverRebound hnever hplain _ _).1 hresolved.1, hresolved.2,
    by decide +kernel, (split_qualify_of_neverRebound hnever hplain _ _).2 hresolved.2⟩

end ContextQuery.Registry
