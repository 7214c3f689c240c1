namespace ContextQuery.Text

/-- Has the character the property `White_Space`? -/
def isBlank (c : Char) : Bool :=
  let n := c.toNat
  (0x09 ≤ n && n ≤ 0x0D) || n == 0x20 || n == 0x85 || n == 0xA0 || n == 0x1680 ||
    (0x2000 ≤ n && n ≤ 0x200A) || n == 0x2028 || n == 0x2029 || n == 0x202F || n == 0x205F ||
    n == 0x3000

def isBlankText (s : String) : Bool := s.toList.all isBlank

theorem isBlankText_of_mem {s : String} {c : Char} (h : c ∈ s.toList) (hc : isBlank c = false) :
    isBlankText s = false := by
  rw [Bool.eq_false_iff]
  intro hb
  have hblank := List.all_eq_true.1 hb c h
  rw [hc] at hblank
  cases hblank

end ContextQuery.Text
