import ContextQuery.Json.Reader
import ContextQuery.Proofs.Entries

namespace ContextQuery.Json

def FitsIn : Nat → Json → Prop
  | 0, .array _ => False
  | 0, .object _ => False
  | n + 1, .array items => ∀ v ∈ items, FitsIn n v
  | n + 1, .object members => ∀ m ∈ members, FitsIn n m.2
  | _, _ => True

mutual

/-- How deep arrays and objects are nested in the value; in a scalar, not at all. -/
def nesting : Json → Nat
  | .array items => nestingOfItems items + 1
  | .object members => nestingOfMembers members + 1
  | _ => 0

def nestingOfItems : List Json → Nat
  | [] => 0
  | v :: rest => max (nesting v) (nestingOfItems rest)

def nestingOfMembers : List (String × Json) → Nat
  | [] => 0
  | (_, v) :: rest => max (nesting v) (nestingOfMembers rest)

end

theorem nestingOfItems_le_iff {n : Nat} {items : List Json} :
    nestingOfItems items ≤ n ↔ ∀ v ∈ items, v.nesting ≤ n := by
  induction items with
  | nil => simp [nestingOfItems]
  | cons v items ih => rw [nestingOfItems, Nat.max_le, ih, List.forall_mem_cons]

theorem nestingOfMembers_le_iff {n : Nat} {members : List (String × Json)} :
    nestingOfMembers members ≤ n ↔ ∀ m ∈ members, m.2.nesting ≤ n := by
  induction members with
  | nil => simp [nestingOfMembers]
  | cons m members ih => rw [nestingOfMembers, Nat.max_le, ih, List.forall_mem_cons]

/-- The nesting is the least limit that the value keeps to. -/
theorem fitsIn_iff_nesting_le {n : Nat} {j : Json} : j.FitsIn n ↔ j.nesting ≤ n := by
  induction n generalizing j with
  | zero => cases j <;> simp [FitsIn, nesting]
  | succ n ih =>
    cases j with
    | array items =>
      rw [nesting, Nat.add_le_add_iff_right, nestingOfItems_le_iff]
      exact forall₂_congr fun v _ => ih
    | object members =>
      rw [nesting, Nat.add_le_add_iff_right, nestingOfMembers_le_iff]
      exact forall₂_congr fun m _ => ih
    | _ => simp [FitsIn, nesting]

def Lexeme.IsFlat : Lexeme → Prop
  | .scalar v => ∀ n, v.FitsIn n
  | _ => True

namespace Lexeme

theorem isFlat_of_mark? {c : Char} {l : Lexeme} (h : mark? c = some l) : l.IsFlat := by
  unfold mark? at h
  repeat' split at h
  all_goals cases h
  all_goals trivial

theorem isFlat_of_word? {cs rest : List Char} {l : Lexeme} (h : word? cs = some (l, rest)) :
    l.IsFlat := by
  obtain ⟨⟨w, v⟩, hw, hfound⟩ := List.exists_of_findSome?_eq_some h
  obtain ⟨-, hl⟩ := Option.ite_none_right_eq_some.1 hfound
  cases hl
  simp only [words, List.mem_cons, List.not_mem_nil, or_false, Prod.mk.injEq] at hw
  rcases hw with ⟨-, rfl⟩ | ⟨-, rfl⟩ | ⟨-, rfl⟩
  all_goals intro n
  all_goals cases n <;> trivial

theorem isFlat_of_other? {c : Char} {cs rest : List Char} {l : Lexeme}
    (h : other? c cs = some (l, rest)) : l.IsFlat := by
  unfold other? at h
  split at h
  · obtain ⟨p, -, hp⟩ := Option.map_eq_some_iff.1 h
    cases hp
    trivial
  · split at h
    · simp only [Option.bind_eq_bind, Option.bind_eq_some_iff] at h
      obtain ⟨numeral, -, number, -, hl⟩ := h
      cases hl
      intro n
      cases n <;> trivial
    · exact isFlat_of_word? h

theorem isFlat_scanAfter {done : List Lexeme} {cs : List Char} {ls : List Lexeme}
    (hdone : ∀ l ∈ done, l.IsFlat) (h : scanAfter done cs = some ls) : ∀ l ∈ ls, l.IsFlat := by
  fun_induction scanAfter done cs with
  | case1 done =>
    cases h
    simpa using hdone
  | case2 done c rest hc ih => exact ih hdone h
  | case3 done c rest hc m hm ih =>
    exact ih (List.forall_mem_cons.2 ⟨isFlat_of_mark? hm, hdone⟩) h
  | case4 => cases h
  | case5 done c rest hc hm l after ho hlt ih =>
    exact ih (List.forall_mem_cons.2 ⟨isFlat_of_other? ho, hdone⟩) h

theorem isFlat_scan? {s : String} {ls : List Lexeme} (h : scan? s = some ls) :
    ∀ l ∈ ls, l.IsFlat :=
  isFlat_scanAfter (fun _ hl => absurd hl List.not_mem_nil) h

end Lexeme

def Level.Fits (room : Nat) : Level → Prop
  | .array items => ∀ v ∈ items, v.FitsIn room
  | .object members _ => ∀ m ∈ members, m.2.FitsIn room

/-- Do the values of all open levels fit, where the nearest one has this room inside it? -/
def LevelsFit : Nat → List Level → Prop
  | _, [] => True
  | room, level :: levels => level.Fits room ∧ LevelsFit (room + 1) levels

/-- Does what the place holds fit in the room that is left there? An object whose next name is still
to come is no open level yet, but takes one. -/
def Place.Fits (room : Nat) : Place → Prop
  | .after v => v.FitsIn room
  | .firstName => 0 < room
  | .name members => 0 < room ∧ ∀ m ∈ members, m.2.FitsIn (room - 1)
  | .colon members _ => 0 < room ∧ ∀ m ∈ members, m.2.FitsIn (room - 1)
  | _ => True

def Within (limit : Nat) (s : Place × List Level) : Prop :=
  ∃ room, room + s.2.length = limit ∧ s.1.Fits room ∧ LevelsFit room s.2

variable {limit room : Nat} {levels : List Level} {s : Place × List Level} {v : Json}

/-- An open level takes one from the room. -/
theorem room_cons_iff {level : Level} :
    room + (level :: levels).length = limit ↔ room + 1 + levels.length = limit := by
  rw [List.length_cons]
  omega

section Members
variable {members : List (String × Json)} {name : String}

theorem fitsIn_insert (hm : ∀ m ∈ members, m.2.FitsIn room) (hv : v.FitsIn room) :
    ∀ m ∈ Entries.insert name v members, m.2.FitsIn room := by
  intro m hmem
  rcases Entries.mem_insert hmem with rfl | hmem
  · exact hv
  · exact hm m hmem

theorem fitsIn_insertAll {acc : List (String × Json)} (hacc : ∀ m ∈ acc, m.2.FitsIn room)
    (hm : ∀ m ∈ members, m.2.FitsIn room) :
    ∀ m ∈ Entries.insertAll acc members, m.2.FitsIn room := by
  induction members generalizing acc with
  | nil => exact hacc
  | cons e members ih =>
    obtain ⟨he, hmembers⟩ := List.forall_mem_cons.1 hm
    exact ih (fitsIn_insert hacc he) hmembers

theorem fitsIn_repeatsAdd {repeats : Repeats} (hm : ∀ m ∈ members, m.2.FitsIn room)
    (hv : v.FitsIn room) : ∀ m ∈ repeats.add name v members, m.2.FitsIn room := by
  cases repeats with
  | replaced => exact fitsIn_insert hm hv
  | kept =>
    intro m hmem
    rcases List.mem_append.1 hmem with hmem | hmem
    · exact hm m hmem
    · rw [List.mem_singleton.1 hmem]
      exact hv

end Members

theorem within_begin? {l : Lexeme} (hroom : room + levels.length = limit)
    (hlevels : LevelsFit room levels) (hl : l.IsFlat)
    (h : begin? (some limit) levels l = some s) : Within limit s := by
  cases l with
  | scalar v =>
    cases h
    exact ⟨room, hroom, hl room, hlevels⟩
  | string text =>
    cases h
    exact ⟨room, hroom, by cases room <;> trivial, hlevels⟩
  | openBracket =>
    obtain ⟨place, henter, rfl⟩ := Option.map_eq_some_iff.1 h
    obtain ⟨hlt, hplace⟩ := Option.ite_none_right_eq_some.1 henter
    cases hplace
    obtain ⟨inner, rfl⟩ : ∃ inner, room = inner + 1 := ⟨room - 1, by omega⟩
    exact ⟨inner, room_cons_iff.2 hroom, trivial, nofun, hlevels⟩
  | openBrace =>
    obtain ⟨place, henter, rfl⟩ := Option.map_eq_some_iff.1 h
    obtain ⟨hlt, hplace⟩ := Option.ite_none_right_eq_some.1 henter
    cases hplace
    have hpos : 0 < room := by omega
    exact ⟨room, hroom, hpos, hlevels⟩
  | _ => cases h

theorem within_close? {repeats : Repeats} {l : Lexeme} (hroom : room + levels.length = limit)
    (hv : v.FitsIn room) (hlevels : LevelsFit room levels)
    (h : close? repeats v levels l = some s) : Within limit s := by
  unfold close? at h
  split at h
  · cases h
    exact ⟨room, hroom, trivial, List.forall_mem_cons.2 ⟨hv, hlevels.1⟩, hlevels.2⟩
  · next items levels =>
    cases h
    have hitems : (Json.array (v :: items).reverse).FitsIn (room + 1) := by
      intro u hu
      rw [List.mem_reverse] at hu
      exact List.forall_mem_cons.2 ⟨hv, hlevels.1⟩ u hu
    exact ⟨room + 1, room_cons_iff.1 hroom, hitems, hlevels.2⟩
  · next members name levels =>
    cases h
    exact ⟨room + 1, room_cons_iff.1 hroom,
      ⟨Nat.succ_pos room, fitsIn_repeatsAdd hlevels.1 hv⟩, hlevels.2⟩
  · next members name levels =>
    cases h
    exact ⟨room + 1, room_cons_iff.1 hroom, fitsIn_repeatsAdd hlevels.1 hv, hlevels.2⟩
  · cases h

/-- A step of the reader keeps to the limit. -/
theorem Within.step? {repeats : Repeats} {place : Place} {l : Lexeme}
    (hw : Within limit (place, levels)) (hl : l.IsFlat)
    (h : step? (some limit) repeats place levels l = some s) : Within limit s := by
  obtain ⟨room, hroom, hplace, hlevels⟩ := hw
  unfold Json.step? at h
  split at h
  · exact within_begin? hroom hlevels hl h
  · -- An array without items ends, which was an open level.
    cases h
    exact ⟨room + 1, room_cons_iff.1 hroom, nofun, hlevels.2⟩
  · exact within_begin? hroom hlevels hl h
  · -- So does an object without members, which was none yet.
    cases h
    obtain ⟨inner, rfl⟩ : ∃ inner, room = inner + 1 := Nat.exists_eq_add_of_le' hplace
    exact ⟨inner + 1, hroom, nofun, hlevels⟩
  · cases h
    exact ⟨room, hroom, ⟨hplace, nofun⟩, hlevels⟩
  · cases h
    exact ⟨room, hroom, hplace, hlevels⟩
  · -- Behind a name, the object is an open level for as long as the value takes.
    cases h
    obtain ⟨hpos, hmembers⟩ := hplace
    obtain ⟨inner, rfl⟩ : ∃ inner, room = inner + 1 := Nat.exists_eq_add_of_le' hpos
    exact ⟨inner, room_cons_iff.2 hroom, trivial, hmembers, hlevels⟩
  · exact within_close? hroom hplace hlevels h
  · cases h

/-- A value that is assembled from lexemes keeps to the limit. -/
theorem Within.assemble? {repeats : Repeats} {place : Place} {ls : List Lexeme}
    (hw : Within limit (place, levels)) (hls : ∀ l ∈ ls, l.IsFlat)
    (h : assemble? (some limit) repeats place levels ls = some v) : v.FitsIn limit := by
  induction ls generalizing place levels with
  | nil =>
    unfold Json.assemble? at h
    split at h
    · cases h
      obtain ⟨room, hroom, hplace, -⟩ := hw
      obtain rfl : room = limit := hroom
      exact hplace
    · cases h
    · next heq => cases heq
  | cons l ls ih =>
    obtain ⟨hl, hls⟩ := List.forall_mem_cons.1 hls
    rw [Json.assemble?] at h
    obtain ⟨⟨place', levels'⟩, hstep, hrest⟩ := Option.bind_eq_some_iff.1 h
    exact ih (hw.step? hl hstep) hls hrest

/-- A value that is read under a limit is nested no deeper than that. -/
theorem fitsIn_of_read? {repeats : Repeats} {text : String}
    (h : read? (some limit) repeats text = some v) : v.FitsIn limit := by
  obtain ⟨ls, hls, hv⟩ := Option.bind_eq_some_iff.1 h
  have hstart : Within limit (.value, []) := ⟨limit, rfl, trivial, trivial⟩
  exact hstart.assemble? (Lexeme.isFlat_scan? hls) hv

end ContextQuery.Json
