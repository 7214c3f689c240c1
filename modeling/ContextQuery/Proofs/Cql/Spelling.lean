import ContextQuery.Proofs.Cql.Scan
import ContextQuery.Proofs.Cql.Word

namespace ContextQuery.Cql
open Text

/-- In front of any text that `p` allows, the characters `cs` are read as tokens that say `ks`. -/
def Spells (cs : List Char) (ks : List Content) (p : List Char → Prop) : Prop :=
  ∀ rest, p rest → ∀ place, ∃ ts place', ts.map Token.content = ks ∧
    Reads ⟨cs ++ rest, place⟩ ts ⟨rest, place'⟩

def wordContent (s : String) : Content := if isBare s then (.bareword, s) else (.quoted, escape s)

def relationContent (s : String) : Content :=
  if isComparatorRun s then (.comparator, s) else wordContent s

/-- A text between quotes is one literal, whatever follows. -/
theorem takes_quote (s : String) (rest : List Char) :
    Takes (quote s).toList (.quoted, escape s) rest := by
  have hs : (quote s).toList = '"' :: (escapeFrom false s.toList ++ ['"']) := by
    simp [quote, toList_escape]
  rw [hs]
  exact .literal rfl (splitLiteral_escapeFrom false s.toList [])

theorem takes_bareword {s : String} {rest : List Char} (hs : s ≠ "")
    (h : ∀ c ∈ s.toList, isBareChar c = true) (stop : EndsWord rest) :
    Takes s.toList (.bareword, s) rest := by
  obtain ⟨c, cs, hcs⟩ := List.exists_cons_of_ne_nil (mt String.toList_eq_nil_iff.1 hs)
  have hof : s = String.ofList (c :: cs) := by rw [← hcs, String.ofList_toList]
  rw [hcs] at h ⊢
  rw [hof]
  exact .word (not_isDelimiter_of_isBareChar (h c List.mem_cons_self)).2
    (fun d hd => (not_isDelimiter_of_isBareChar (h d hd)).1) stop

/-- A word as it is written is one token in front of anything that ends a word. -/
theorem takes_writeWord (s : String) {rest : List Char} (stop : EndsWord rest) :
    Takes (writeWord s).toList (wordContent s) rest := by
  unfold writeWord wordContent
  by_cases h : isBare s = true
  · obtain ⟨hs, -, hall⟩ := isBare_iff.1 h
    rw [if_pos h, if_pos h]
    exact takes_bareword hs hall stop
  · rw [if_neg h, if_neg h]
    exact takes_quote s rest

namespace Spells

theorem nil (p : List Char → Prop) : Spells [] [] p := fun _ _ place =>
  ⟨[], place, rfl, .nil _⟩

theorem append {cs ds : List Char} {ks ls : List Content} {p q : List Char → Prop}
    (h : Spells cs ks p) (h' : Spells ds ls q) (hpq : ∀ rest, q rest → p (ds ++ rest)) :
    Spells (cs ++ ds) (ks ++ ls) q := by
  intro rest hq place
  obtain ⟨ts, mid, hks, hr⟩ := h (ds ++ rest) (hpq rest hq) place
  obtain ⟨us, stop, hls, hr'⟩ := h' rest hq mid
  refine ⟨ts ++ us, stop, ?_, ?_⟩
  · rw [List.map_append, hks, hls]
  · rw [List.append_assoc]
    exact hr.append hr'

theorem mono {cs : List Char} {ks : List Content} {p q : List Char → Prop} (h : Spells cs ks p)
    (hpq : ∀ rest, q rest → p rest) : Spells cs ks q := fun rest hq => h rest (hpq rest hq)

/-- A blank in front of a token belongs to none. -/
theorem space {cs : List Char} {k : Content} {ks : List Content} {p : List Char → Prop}
    (h : Spells cs (k :: ks) p) : Spells (' ' :: cs) (k :: ks) p := by
  intro rest hp place
  obtain ⟨ts, stop, hks, hr⟩ := h rest hp (place.advance ' ')
  obtain ⟨t, us, rfl, -, -⟩ := List.map_eq_cons_iff.1 hks
  exact ⟨t :: us, stop, hks, hr.of_next_eq (Cursor.next_of_isSpace rfl _ _)⟩

/-- One token, by the characters that it takes. -/
theorem of_takes {cs : List Char} {k : Content} {p : List Char → Prop}
    (h : ∀ rest, p rest → Takes cs k rest) : Spells cs [k] p := by
  intro rest hp place
  have htakes := h rest hp
  exact ⟨[_], _, rfl, .cons (next_of_takes_nil htakes place) (kind_of_takes htakes)
    (.nil _)⟩

theorem punctuation {c : Char} {kind : TokenKind} (h : punctuation? c = some kind) :
    Spells [c] [(kind, String.singleton c)] fun _ => True :=
  of_takes fun _ _ => .punctuation h

theorem quote (s : String) : Spells (quote s).toList [(.quoted, escape s)] fun _ => True :=
  of_takes fun rest _ => takes_quote s rest

theorem bareword {s : String} (hs : s ≠ "") (h : ∀ c ∈ s.toList, isBareChar c = true) :
    Spells s.toList [(.bareword, s)] EndsWord :=
  of_takes fun _ => takes_bareword hs h

theorem comparator {s : String} (h : isComparatorRun s = true) :
    Spells s.toList [(.comparator, s)] EndsRun := by
  obtain ⟨hs, h⟩ := isComparatorRun_iff.1 h
  obtain ⟨c, cs, hcs⟩ := List.exists_cons_of_ne_nil (mt String.toList_eq_nil_iff.1 hs)
  have hof : s = String.ofList (c :: cs) := by rw [← hcs, String.ofList_toList]
  rw [hcs] at h ⊢
  rw [hof]
  exact of_takes fun _ => .comparator h

theorem word (s : String) : Spells (writeWord s).toList [wordContent s] EndsWord :=
  of_takes fun _ => takes_writeWord s

theorem relation (s : String) :
    Spells (writeRelation s).toList [relationContent s]
      fun rest => EndsWord rest ∧ EndsRun rest := by
  unfold writeRelation relationContent
  by_cases h : isComparatorRun s = true
  · rw [if_pos h, if_pos h]
    exact (comparator h).mono fun _ hr => hr.2
  · rw [if_neg h, if_neg h]
    exact (word s).mono fun _ hr => hr.1

end Spells

theorem endsWord_cons {c : Char} (h : isDelimiter c = true) (cs : List Char) :
    EndsWord (c :: cs) := by
  intro d hd
  cases hd
  exact h

/-- A comparator never runs on from a word. -/
theorem endsWord_comparator {s : String} (h : isComparatorRun s = true) (rest : List Char) :
    EndsWord (s.toList ++ rest) := by
  obtain ⟨hs, hall⟩ := isComparatorRun_iff.1 h
  obtain ⟨c, cs, hcs⟩ := List.exists_cons_of_ne_nil (mt String.toList_eq_nil_iff.1 hs)
  rw [hcs] at hall ⊢
  apply endsWord_cons
  simp only [isDelimiter, hall c List.mem_cons_self, Bool.or_true, Bool.true_or]

/-- A word never runs on from a comparator. -/
theorem endsRun_writeWord (s : String) (rest : List Char) :
    EndsRun ((writeWord s).toList ++ rest) := by
  intro c hc
  unfold writeWord at hc
  split at hc
  · next h =>
    obtain ⟨hs, -, hall⟩ := isBare_iff.1 h
    obtain ⟨d, ds, hds⟩ := List.exists_cons_of_ne_nil (mt String.toList_eq_nil_iff.1 hs)
    rw [hds] at hc hall
    cases hc
    have := (not_isDelimiter_of_isBareChar (hall _ List.mem_cons_self)).1
    simp only [isDelimiter, Bool.or_eq_false_iff] at this
    exact this.1.2
  · simp only [quote, String.toList_append, List.append_assoc] at hc
    cases hc
    decide

end ContextQuery.Cql
