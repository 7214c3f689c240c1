import ContextQuery.Text.CaseTable

namespace ContextQuery.Text

def isCased (c : Char) : Bool := casedRanges.any (·.contains c.toNat)

def isCaseIgnorable (c : Char) : Bool := caseIgnorableRanges.any (·.contains c.toNat)

/-- The lower-case form of a character by itself. A capital I with a dot above is the only one that
becomes two characters. -/
def lowerChar (c : Char) : List Char :=
  if c.toNat < 0x80 then [c.toLower]
  else if c.toNat = 0x130 then ['i', '\u0307']
  else match lowerRanges.find? (·.maps c.toNat) with
    | some r => [Char.ofNat ((c.toNat : Int) + r.shift).toNat]
    | none => [c]

def leadsToCased : List Char → Bool
  | [] => false
  | c :: rest => if isCaseIgnorable c then leadsToCased rest else isCased c

/-- The lower-case form of a text. `before` holds the characters in front of it, nearest first: a
capital sigma is final if a letter stands before it and none after it. -/
def lowerAfter (before : List Char) : List Char → List Char
  | [] => []
  | c :: rest =>
    (if c = 'Σ' then [if leadsToCased before && !leadsToCased rest then 'ς' else 'σ']
      else lowerChar c) ++ lowerAfter (c :: before) rest

def lowerCase (s : String) : String := String.ofList (lowerAfter [] s.toList)

def sameIgnoringCase (s t : String) : Bool :=
  s.toList.map Char.toLower == t.toList.map Char.toLower

theorem sameIgnoringCase_refl (s : String) : sameIgnoringCase s s = true := by
  simp [sameIgnoringCase]

example : lowerCase "ΑΣ ΑΣΑ İK" = "ας ασα i\u0307k" := by decide +kernel

end ContextQuery.Text
