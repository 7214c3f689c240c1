import ContextQuery.Text.Blank
import ContextQuery.Text.LowerCase

namespace ContextQuery.Text

/-- Is the character its own lower-case form wherever it stands? -/
def IsLower (c : Char) : Prop := c ≠ 'Σ' ∧ lowerChar c = [c]

instance (c : Char) : Decidable (IsLower c) := inferInstanceAs (Decidable (_ ∧ _))

def Lowered (s : String) : Prop := ∀ c ∈ s.toList, IsLower c

instance (s : String) : Decidable (Lowered s) := List.decidableBAll IsLower s.toList

/-- Sets of numbers are compared in one step as the bits of a number. -/
def unionOfBits (ms : List Nat) : Nat := ms.foldr (· ||| ·) 0

theorem testBit_unionOfBits {ms : List Nat} {m n : Nat} (hm : m ∈ ms) (h : m.testBit n = true) :
    (unionOfBits ms).testBit n = true := by
  induction ms with
  | nil => cases hm
  | cons m' ms ih =>
    change (m' ||| unionOfBits ms).testBit n = true
    rw [Nat.testBit_or, Bool.or_eq_true]
    rcases List.mem_cons.1 hm with rfl | hm
    · exact .inl h
    · exact .inr (ih hm)

namespace CaseRange

def target (r : CaseRange) (i : Nat) : Nat := (((r.first + i * r.step : Nat) : Int) + r.shift).toNat

def capitals (r : CaseRange) : Nat :=
  unionOfBits ((List.range r.size).map fun i => 1 <<< (r.first + i * r.step))

def targets (r : CaseRange) : Nat :=
  unionOfBits ((List.range r.size).map fun i => 1 <<< r.target i)

theorem eq_of_maps {r : CaseRange} {n : Nat} (h : r.maps n = true) :
    ∃ i < r.size, n = r.first + i * r.step := by
  simp only [maps, Range.contains, Bool.and_eq_true, decide_eq_true_eq, beq_iff_eq] at h
  obtain ⟨⟨hf, hl⟩, hm⟩ := h
  refine ⟨(n - r.first) / r.step, ?_, ?_⟩
  · exact Nat.lt_succ_of_le (Nat.div_le_div_right (by omega))
  · have := Nat.div_add_mod (n - r.first) r.step
    rw [Nat.mul_comm] at this
    omega

theorem testBit_capitals {r : CaseRange} {n : Nat} (h : r.maps n = true) :
    r.capitals.testBit n = true := by
  obtain ⟨i, hi, rfl⟩ := eq_of_maps h
  exact testBit_unionOfBits (List.mem_map_of_mem (List.mem_range.2 hi)) (by simp)

theorem testBit_targets {r : CaseRange} {i : Nat} (h : i < r.size) :
    r.targets.testBit (r.target i) = true :=
  testBit_unionOfBits (List.mem_map_of_mem (List.mem_range.2 h)) (by simp)

end CaseRange

/-- No capital is shifted to a capital. -/
theorem not_maps_target {r s : CaseRange} (hr : r ∈ lowerRanges) (hs : s ∈ lowerRanges) {i : Nat}
    (hi : i < r.size) : s.maps (r.target i) = false := by
  have hapart : unionOfBits (lowerRanges.map CaseRange.capitals) &&&
      unionOfBits (lowerRanges.map CaseRange.targets) = 0 := by
    decide +kernel
  rw [Bool.eq_false_iff]
  intro hm
  have hcapital := testBit_unionOfBits (List.mem_map_of_mem hs) (CaseRange.testBit_capitals hm)
  have htarget := testBit_unionOfBits (List.mem_map_of_mem hr) (CaseRange.testBit_targets hi)
  have hboth := Nat.testBit_and (unionOfBits (lowerRanges.map CaseRange.capitals))
    (unionOfBits (lowerRanges.map CaseRange.targets)) (r.target i)
  rw [hapart, hcapital, htarget, Nat.zero_testBit] at hboth
  cases hboth

/-- Outside ASCII, only the Kelvin sign has a lower-case form in it. -/
theorem target_lowerRanges : ∀ r ∈ lowerRanges, ∀ i < r.size, 0x80 ≤ r.first + i * r.step →
    (r.target i).isValidChar ∧ r.target i ≠ 0x130 ∧
      (0x80 ≤ r.target i ∨ r.target i = 'k'.toNat) := by
  decide +kernel

/-- What holds of the characters of ASCII is decided by going through them. -/
theorem of_isAscii {p : Char → Prop} (h : ∀ n < 0x80, p (Char.ofNat n)) {c : Char}
    (hc : c.toNat < 0x80) : p c := by
  have hp := h c.toNat hc
  rwa [Char.ofNat_toNat] at hp

theorem isLower_toLower {c : Char} (hc : c.toNat < 0x80) : IsLower c.toLower :=
  of_isAscii (p := fun c => IsLower c.toLower) (by decide) hc

theorem exists_maps_sigma : ∃ s ∈ lowerRanges, s.maps 'Σ'.toNat = true := by decide

/-- What a capital outside ASCII is shifted to is no capital itself. -/
theorem isLower_shifted {r : CaseRange} {n : Nat} (hr : r ∈ lowerRanges) (hm : r.maps n = true)
    (hn : 0x80 ≤ n) : IsLower (Char.ofNat ((n : Int) + r.shift).toNat) := by
  obtain ⟨i, hi, rfl⟩ := CaseRange.eq_of_maps hm
  obtain ⟨hv, hdot, hascii⟩ := target_lowerRanges r hr i hi hn
  change IsLower (Char.ofNat (r.target i))
  rcases hascii with hascii | hk
  · have hnat : (Char.ofNat (r.target i)).toNat = r.target i := by
      rw [Char.ofNat, dif_pos hv]; rfl
    have hmiss : ∀ s ∈ lowerRanges, s.maps (r.target i) = false := fun s hs =>
      not_maps_target hr hs hi
    refine ⟨fun hs => ?_, ?_⟩
    · obtain ⟨s, hs', hsigma⟩ := exists_maps_sigma
      rw [← hs, hnat, hmiss s hs'] at hsigma
      cases hsigma
    · have hnone : lowerRanges.find? (·.maps (r.target i)) = none :=
        List.find?_eq_none.2 fun s hs => by simp [hmiss s hs]
      simp only [lowerChar, hnat, hnone, hdot, Nat.not_lt.2 hascii, ↓reduceIte]
  · rw [hk]
    decide

theorem isLower_of_mem_lowerChar {c d : Char} (hc : c ≠ 'Σ') (hd : d ∈ lowerChar c) :
    IsLower d := by
  unfold lowerChar at hd
  split at hd
  · next h =>
    rw [List.mem_singleton.1 hd]
    exact isLower_toLower h
  · next h =>
    split at hd
    · simp only [List.mem_cons, List.not_mem_nil, or_false] at hd
      rcases hd with rfl | rfl <;> decide
    · next hdot =>
      split at hd
      · next r hr =>
        rw [List.mem_singleton.1 hd]
        have hm := List.find?_some hr
        exact isLower_shifted (List.mem_of_find?_eq_some hr) hm (Nat.not_lt.1 h)
      · next hnone =>
        rw [List.mem_singleton.1 hd]
        exact ⟨hc, by simp only [lowerChar, h, hdot, hnone, ↓reduceIte]⟩

theorem isLower_of_mem_lowerAfter {before cs : List Char} {d : Char}
    (hd : d ∈ lowerAfter before cs) : IsLower d := by
  induction cs generalizing before with
  | nil => cases hd
  | cons c cs ih =>
    rcases List.mem_append.1 hd with hd | hd
    · split at hd
      · rw [List.mem_singleton.1 hd]
        split <;> decide
      · next hc => exact isLower_of_mem_lowerChar hc hd
    · exact ih hd

theorem lowerAfter_eq_self {cs : List Char} (h : ∀ c ∈ cs, IsLower c) (before : List Char) :
    lowerAfter before cs = cs := by
  induction cs generalizing before with
  | nil => rfl
  | cons c cs ih =>
    obtain ⟨hc, hl⟩ := h c List.mem_cons_self
    simp only [lowerAfter, hc, ↓reduceIte, hl, List.singleton_append,
      ih fun d hd => h d (List.mem_cons_of_mem c hd)]

/-- A character that is its own lower-case form is kept. -/
theorem mem_lowerAfter_of_mem {before cs : List Char} {c : Char} (hc : IsLower c) (h : c ∈ cs) :
    c ∈ lowerAfter before cs := by
  induction cs generalizing before with
  | nil => cases h
  | cons d cs ih =>
    rw [lowerAfter, List.mem_append]
    rcases List.mem_cons.1 h with rfl | h
    · rw [if_neg hc.1, hc.2]
      exact .inl (List.mem_singleton_self c)
    · exact .inr (ih h)

theorem lowerChar_ne_nil (c : Char) : lowerChar c ≠ [] := by
  unfold lowerChar
  split
  · simp
  · split
    · simp
    · split <;> simp

theorem lowerCase_eq_empty {s : String} (h : lowerCase s = "") : s = "" := by
  rw [lowerCase, ← String.toList_eq_nil_iff, String.toList_ofList] at h
  rw [← String.toList_eq_nil_iff]
  cases hs : s.toList with
  | nil => rfl
  | cons c cs =>
    rw [hs, lowerAfter, List.append_eq_nil_iff] at h
    split at h
    · cases h.1
    · exact absurd h.1 (lowerChar_ne_nil c)

theorem lowered_lowerCase (s : String) : Lowered (lowerCase s) := fun c hc => by
  rw [lowerCase, String.toList_ofList] at hc
  exact isLower_of_mem_lowerAfter hc

theorem Lowered.lowerCase_eq {s : String} (h : Lowered s) : lowerCase s = s := by
  rw [lowerCase, lowerAfter_eq_self h, String.ofList_toList]

/-- A character outside ASCII keeps out of it, but for the Kelvin sign. -/
theorem exists_mem_lowerChar {c : Char} (hc : 0x80 ≤ c.toNat) :
    ∃ d ∈ lowerChar c, 0x80 ≤ d.toNat ∨ d = 'k' := by
  unfold lowerChar
  rw [if_neg (Nat.not_lt.2 hc)]
  split
  · exact ⟨'\u0307', by simp, .inl (by decide)⟩
  · split
    · next r hr =>
      have hm := List.find?_some hr
      obtain ⟨i, hi, hn⟩ := CaseRange.eq_of_maps hm
      obtain ⟨hv, -, ht⟩ :=
        target_lowerRanges r (List.mem_of_find?_eq_some hr) i hi (by rw [← hn]; exact hc)
      refine ⟨_, List.mem_singleton_self _, ?_⟩
      rw [hn]
      change 0x80 ≤ (Char.ofNat (r.target i)).toNat ∨ Char.ofNat (r.target i) = 'k'
      rcases ht with ht | ht
      · rw [Char.ofNat, dif_pos hv]
        exact .inl ht
      · rw [ht]
        exact .inr (by decide)
    · exact ⟨c, List.mem_singleton_self c, .inl hc⟩

/-- Where the lower-case form is in ASCII, without the letter that the Kelvin sign leads to as well,
nothing but ASCII has been lowered. -/
theorem map_toLower_eq {before cs : List Char}
    (h : ∀ d ∈ lowerAfter before cs, d.toNat < 0x80 ∧ d ≠ 'k') :
    cs.map Char.toLower = lowerAfter before cs := by
  induction cs generalizing before with
  | nil => rfl
  | cons c cs ih =>
    simp only [lowerAfter, List.mem_append] at h ⊢
    have hrest := ih fun d hd => h d (.inr hd)
    rw [List.map_cons, hrest]
    by_cases hs : c = 'Σ'
    · -- Both forms of sigma lie outside ASCII.
      simp only [hs, ↓reduceIte, List.mem_singleton] at h
      have := h _ (.inl rfl)
      split at this <;> exact absurd this (by decide)
    · simp only [hs, ↓reduceIte] at h ⊢
      have hc : c.toNat < 0x80 := by
        apply Nat.lt_of_not_le
        intro hc
        obtain ⟨d, hd, hk⟩ := exists_mem_lowerChar hc
        have := h d (.inl hd)
        rcases hk with hk | hk
        · omega
        · exact this.2 hk
      rw [lowerChar, if_pos hc, List.singleton_append]

/-- The case of a letter is a matter of ASCII alone. -/
theorem toNat_lt_of_toLower {c : Char} (h : c.toLower.toNat < 0x80) : c.toNat < 0x80 := by
  unfold Char.toLower at h
  split at h
  · next hc =>
    have hle : c.toNat ≤ 'Z'.toNat := hc.2
    exact Nat.lt_of_le_of_lt hle (by decide)
  · exact h

/-- What is in ASCII but for the case of its letters is lowered letter by letter. -/
theorem lowerAfter_eq_map_toLower {before cs : List Char}
    (h : ∀ d ∈ cs.map Char.toLower, d.toNat < 0x80) :
    lowerAfter before cs = cs.map Char.toLower := by
  induction cs generalizing before with
  | nil => rfl
  | cons c cs ih =>
    rw [List.map_cons, List.forall_mem_cons] at h
    have hc := toNat_lt_of_toLower h.1
    have hs : c ≠ 'Σ' := fun hs => absurd (hs ▸ hc) (by decide)
    rw [lowerAfter, if_neg hs, lowerChar, if_pos hc, ih h.2, List.singleton_append, List.map_cons]

section Blank

def blankNumbers : List Nat :=
  [0x09, 0x0A, 0x0B, 0x0C, 0x0D, 0x20, 0x85, 0xA0, 0x1680, 0x2000, 0x2001, 0x2002, 0x2003, 0x2004,
    0x2005, 0x2006, 0x2007, 0x2008, 0x2009, 0x200A, 0x2028, 0x2029, 0x202F, 0x205F, 0x3000]

theorem toNat_mem_blankNumbers {c : Char} (h : isBlank c = true) : c.toNat ∈ blankNumbers := by
  simp only [isBlank, Bool.or_eq_true, Bool.and_eq_true, decide_eq_true_eq, beq_iff_eq] at h
  simp only [blankNumbers, List.mem_cons, List.not_mem_nil, or_false]
  omega

/-- White space has no case. -/
theorem isLower_of_isBlank {c : Char} (h : isBlank c = true) : IsLower c := by
  have hnumbers : ∀ n ∈ blankNumbers, IsLower (Char.ofNat n) := by decide +kernel
  have hc := hnumbers c.toNat (toNat_mem_blankNumbers h)
  rwa [Char.ofNat_toNat] at hc

theorem isBlank_target : ∀ r ∈ lowerRanges, ∀ i < r.size,
    isBlank (Char.ofNat (r.target i)) = false := by
  decide +kernel

/-- Nothing but white space becomes white space. -/
theorem isBlank_of_mem_lowerChar {c d : Char} (h : d ∈ lowerChar c) (hd : isBlank d = true) :
    isBlank c = true := by
  unfold lowerChar at h
  split at h
  · next hc =>
    obtain rfl := List.mem_singleton.1 h
    exact of_isAscii (p := fun c => isBlank c.toLower = true → isBlank c = true) (by decide) hc hd
  · split at h
    · simp only [List.mem_cons, List.not_mem_nil, or_false] at h
      rcases h with rfl | rfl <;> exact absurd hd (by decide)
    · split at h
      · next r hr =>
        obtain rfl := List.mem_singleton.1 h
        have hm := List.find?_some hr
        obtain ⟨i, hi, hn⟩ := CaseRange.eq_of_maps hm
        rw [hn] at hd
        exact absurd hd (Bool.eq_false_iff.1 (isBlank_target r (List.mem_of_find?_eq_some hr) i hi))
      · rwa [List.mem_singleton.1 h] at hd

theorem isBlank_of_lowerAfter {before cs : List Char}
    (h : ∀ d ∈ lowerAfter before cs, isBlank d = true) : ∀ c ∈ cs, isBlank c = true := by
  induction cs generalizing before with
  | nil => exact nofun
  | cons c cs ih =>
    simp only [lowerAfter, List.forall_mem_append] at h
    refine List.forall_mem_cons.2 ⟨?_, ih h.2⟩
    obtain ⟨hc, -⟩ := h
    split at hc
    · have := hc _ List.mem_cons_self
      split at this <;> exact absurd this (by decide)
    · obtain ⟨d, ds, hds⟩ := List.exists_cons_of_ne_nil (lowerChar_ne_nil c)
      have hd : d ∈ lowerChar c := by simp [hds]
      exact isBlank_of_mem_lowerChar hd (hc d hd)

theorem isBlankText_lowerCase (s : String) : isBlankText (lowerCase s) = isBlankText s := by
  rw [Bool.eq_iff_iff, isBlankText, isBlankText, List.all_eq_true, List.all_eq_true]
  constructor
  · intro h
    rw [lowerCase, String.toList_ofList] at h
    exact isBlank_of_lowerAfter h
  · intro h
    have hlowered : Lowered s := fun c hc => isLower_of_isBlank (h c hc)
    rwa [hlowered.lowerCase_eq]

end Blank

section Letters

theorem toLower_of_not_ascii {c : Char} (h : 0x80 ≤ c.toNat) : c.toLower = c := by
  unfold Char.toLower
  split
  · next hc =>
    have hle : c.toNat ≤ 'Z'.toNat := hc.2
    exact absurd (Nat.le_trans h hle) (by decide)
  · rfl

/-- What looks at no case is decided by going through ASCII. -/
theorem of_toLower {α : Type} {f : Char → α}
    (h : ∀ n < 0x80, f (Char.ofNat n).toLower = f (Char.ofNat n)) (c : Char) :
    f c.toLower = f c := by
  rcases Nat.lt_or_ge c.toNat 0x80 with hc | hc
  · exact of_isAscii (p := fun c => f c.toLower = f c) h hc
  · rw [toLower_of_not_ascii hc]

theorem forall_mem_map_toLower {p : Char → Bool} (hp : ∀ c, p c.toLower = p c) {b : Bool}
    {cs : List Char} (h : ∀ c ∈ cs, p c = b) : ∀ c ∈ cs.map Char.toLower, p c = b :=
  List.forall_mem_map.2 fun c hc => (hp c).trans (h c hc)

theorem forall_head?_map_toLower {p : Char → Bool} (hp : ∀ c, p c.toLower = p c) {b : Bool}
    {cs : List Char} (h : ∀ c ∈ cs.head?, p c = b) :
    ∀ c ∈ (cs.map Char.toLower).head?, p c = b := by
  cases cs with
  | nil => exact nofun
  | cons c cs =>
    intro d hd
    rw [← Option.some.inj hd, hp]
    exact h c rfl

/-- Where a table reaches into ASCII with its first `k` ranges alone, and these hold a letter in
either case or in none, so does the table. -/
theorem any_contains_toLower {rs : List Range} {k : Nat} (h : ∀ r ∈ rs.drop k, 0x80 ≤ r.first)
    (hk : ∀ n < 0x80, (rs.take k).any (·.contains (Char.ofNat n).toLower.toNat) =
      (rs.take k).any (·.contains (Char.ofNat n).toNat)) (c : Char) :
    rs.any (·.contains c.toLower.toNat) = rs.any (·.contains c.toNat) := by
  rcases Nat.lt_or_ge c.toNat 0x80 with hc | hc
  · have hmiss {n : Nat} (hn : n < 0x80) : (rs.drop k).any (·.contains n) = false := by
      refine List.any_eq_false.2 fun r hr => ?_
      have hfirst := h r hr
      simp only [Range.contains, Bool.and_eq_true, decide_eq_true_eq]
      omega
    have hl : c.toLower.toNat < 0x80 :=
      of_isAscii (p := fun c => c.toLower.toNat < 0x80) (by decide) hc
    rw [← List.take_append_drop k rs, List.any_append, List.any_append, hmiss hl, hmiss hc,
      Bool.or_false, Bool.or_false]
    exact of_isAscii (p := fun c => (rs.take k).any (·.contains c.toLower.toNat) =
      (rs.take k).any (·.contains c.toNat)) hk hc
  · rw [toLower_of_not_ascii hc]

theorem isCased_toLower (c : Char) : isCased c.toLower = isCased c :=
  any_contains_toLower (k := 2) (by decide +kernel) (by decide +kernel) c

theorem isCaseIgnorable_toLower (c : Char) : isCaseIgnorable c.toLower = isCaseIgnorable c :=
  any_contains_toLower (k := 5) (by decide +kernel) (by decide +kernel) c

theorem lowerChar_toLower (c : Char) : lowerChar c.toLower = lowerChar c :=
  of_toLower (by decide +kernel) c

theorem toLower_eq_sigma (c : Char) : (c.toLower = 'Σ') = (c = 'Σ') :=
  of_toLower (f := (· = 'Σ')) (by decide) c

theorem leadsToCased_map (cs : List Char) :
    leadsToCased (cs.map Char.toLower) = leadsToCased cs := by
  induction cs with
  | nil => rfl
  | cons c cs ih =>
    rw [List.map_cons, leadsToCased, leadsToCased, isCaseIgnorable_toLower, isCased_toLower, ih]

theorem lowerAfter_map (before cs : List Char) :
    lowerAfter (before.map Char.toLower) (cs.map Char.toLower) = lowerAfter before cs := by
  induction cs generalizing before with
  | nil => rfl
  | cons c cs ih =>
    have hmore := ih (c :: before)
    rw [List.map_cons] at hmore
    rw [List.map_cons, lowerAfter, lowerAfter, hmore, leadsToCased_map, leadsToCased_map,
      lowerChar_toLower]
    simp only [toLower_eq_sigma]

end Letters

section IgnoringCase
variable {s t u : String}

theorem sameIgnoringCase_iff :
    sameIgnoringCase s t = true ↔ s.toList.map Char.toLower = t.toList.map Char.toLower := beq_iff_eq

theorem sameIgnoringCase_symm (h : sameIgnoringCase s t = true) : sameIgnoringCase t s = true :=
  sameIgnoringCase_iff.2 (sameIgnoringCase_iff.1 h).symm

theorem sameIgnoringCase_trans (h : sameIgnoringCase s t = true)
    (h' : sameIgnoringCase t u = true) : sameIgnoringCase s u = true :=
  sameIgnoringCase_iff.2 ((sameIgnoringCase_iff.1 h).trans (sameIgnoringCase_iff.1 h'))

theorem length_eq_of_sameIgnoringCase (h : sameIgnoringCase s t = true) :
    s.toList.length = t.toList.length := by
  simpa only [List.length_map] using congrArg List.length (sameIgnoringCase_iff.1 h)

/-- A word in small ASCII letters without a `k` is the lower-case form of its own spellings only. -/
theorem lowerCase_eq_iff {word : String}
    (hword : ∀ c ∈ word.toList, c.toNat < 0x80 ∧ c ≠ 'k' ∧ c.toLower = c) :
    lowerCase s = word ↔ sameIgnoringCase s word = true := by
  have hsmall : word.toList.map Char.toLower = word.toList :=
    (List.map_congr_left fun c hc => (hword c hc).2.2).trans (List.map_id _)
  have hlower : lowerCase s = word ↔ lowerAfter [] s.toList = word.toList := by
    rw [lowerCase, ← String.toList_inj, String.toList_ofList]
  rw [hlower, sameIgnoringCase_iff, hsmall]
  constructor
  · intro h
    rw [← h]
    apply map_toLower_eq
    rw [h]
    exact fun c hc => ⟨(hword c hc).1, (hword c hc).2.1⟩
  · intro h
    rw [← h]
    apply lowerAfter_eq_map_toLower
    rw [h]
    exact fun c hc => (hword c hc).1

end IgnoringCase

end ContextQuery.Text
