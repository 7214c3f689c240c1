import ContextQuery.Except
import Mathlib.Data.List.Forall2
import Mathlib.Data.List.Nodup

namespace ContextQuery
variable {α β : Type}

theorem mapM_eq_ok_iff {ε : Type} {f : α → Except ε β} {as : List α} {bs : List β} :
    as.mapM f = .ok bs ↔ List.Forall₂ (fun a b => f a = .ok b) as bs := by
  induction as generalizing bs with
  | nil =>
    rw [List.forall₂_nil_left_iff]
    constructor
    · intro h
      exact (Except.ok.inj h).symm
    · rintro rfl
      rfl
  | cons a as ih =>
    rw [List.mapM_cons, List.forall₂_cons_left_iff]
    constructor
    · intro h
      obtain ⟨b, hb, hrest⟩ := bind_eq_ok_iff.1 h
      obtain ⟨bs', hbs, hret⟩ := bind_eq_ok_iff.1 hrest
      exact ⟨b, bs', hb, ih.1 hbs, (Except.ok.inj hret).symm⟩
    · rintro ⟨b, bs', hb, hbs, rfl⟩
      rw [hb, ih.2 hbs]
      rfl

theorem exists_mem_of_forall₂ {p : α → β → Prop} {as : List α} {bs : List β}
    (h : List.Forall₂ p as bs) : ∀ b ∈ bs, ∃ a ∈ as, p a b := by
  induction h with
  | nil => exact nofun
  | @cons a b as bs hab _ ih =>
    refine List.forall_mem_cons.2 ⟨⟨a, List.mem_cons_self, hab⟩, fun b' hb' => ?_⟩
    obtain ⟨a', ha', hp⟩ := ih b' hb'
    exact ⟨a', List.mem_cons_of_mem a ha', hp⟩

/-- What occurs in the image of a list occurs in it for a last time. -/
theorem exists_last_of_mem_map {f : α → β} {xs : List α} {b : β} (h : b ∈ xs.map f) :
    ∃ before x after, xs = before ++ x :: after ∧ f x = b ∧ b ∉ after.map f := by
  induction xs with
  | nil => cases h
  | cons x xs ih =>
    by_cases hmem : b ∈ xs.map f
    · obtain ⟨before, y, after, rfl, hy, hafter⟩ := ih hmem
      exact ⟨x :: before, y, after, rfl, hy, hafter⟩
    · exact ⟨[], x, xs, rfl, ((List.mem_cons.1 h).resolve_right hmem).symm, hmem⟩

/-- What stands in front of the first mark can be told from the rest. -/
theorem before_mark_unambiguous {m : α} {a b x y : List α} (ha : m ∉ a) (hb : m ∉ b)
    (h : a ++ m :: x = b ++ m :: y) : a = b ∧ x = y := by
  induction a generalizing b with
  | nil =>
    cases b with
    | nil => exact ⟨rfl, (List.cons.inj h).2⟩
    | cons c b => exact absurd (List.cons.inj h).1 (List.ne_of_not_mem_cons hb)
  | cons c a ih =>
    cases b with
    | nil => exact absurd (List.cons.inj h).1.symm (List.ne_of_not_mem_cons ha)
    | cons d b =>
      obtain ⟨rfl, hrest⟩ := List.cons.inj h
      obtain ⟨rfl, hxy⟩ := ih (List.not_mem_of_not_mem_cons ha) (List.not_mem_of_not_mem_cons hb)
        hrest
      exact ⟨rfl, hxy⟩

/-- Members that are all taken do not keep free ones from differing. -/
theorem nodup_append_free_iff {front back free taken : List α} (hnodup : (front ++ back).Nodup)
    (htaken : ∀ a ∈ front ++ back, a ∈ taken) (hfree : ∀ a ∈ free, a ∉ taken) :
    (front ++ free ++ back).Nodup ↔ free.Nodup := by
  have hperm : (front ++ free ++ back).Perm ((front ++ back) ++ free) := by
    rw [List.append_assoc, List.append_assoc]
    exact List.perm_append_comm.append_left front
  rw [hperm.nodup_iff]
  constructor
  · exact fun h => h.of_append_right
  · exact fun h => hnodup.append h fun a ha hmem => hfree a hmem (htaken a ha)

section While
variable {p : α → Bool}

/-- A run ends in front of the first member that is not of its class. -/
theorem span_append {as rest : List α} (has : ∀ a ∈ as, p a = true)
    (hrest : ∀ a ∈ rest.head?, p a = false) :
    (as ++ rest).takeWhile p = as ∧ (as ++ rest).dropWhile p = rest := by
  rw [List.takeWhile_append_of_pos has, List.dropWhile_append_of_pos has]
  cases rest with
  | nil => exact ⟨List.append_nil as, rfl⟩
  | cons a rest =>
    have ha := hrest a rfl
    simp [ha]

theorem head?_dropWhile (as : List α) : ∀ a ∈ (as.dropWhile p).head?, p a = false := by
  intro a ha
  have h := List.head?_dropWhile_not p as
  rw [Option.mem_def.1 ha] at h
  exact h

end While

end ContextQuery
