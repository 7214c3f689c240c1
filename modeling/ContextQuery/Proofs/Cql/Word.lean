import ContextQuery.Cql.Scan
import ContextQuery.Cql.Writer
import ContextQuery.Proofs.Text.LowerCase

namespace ContextQuery.Cql
open Text

theorem splitLiteral_escapeFrom (escaped : Bool) (cs rest : List Char) :
    splitLiteral '"' escaped (escapeFrom escaped cs ++ '"' :: rest) =
      some (escapeFrom escaped cs, rest) := by
  induction cs generalizing escaped with
  | nil => cases escaped <;> simp [escapeFrom, splitLiteral]
  | cons c cs ih =>
    by_cases hq : c = '"' ∧ escaped = false
    · obtain ⟨rfl, rfl⟩ := hq
      simp [escapeFrom, splitLiteral, ih]
    · simp [escapeFrom, splitLiteral, hq, ih]

theorem escapeFrom_escapeFrom (escaped : Bool) (cs : List Char) :
    escapeFrom escaped (escapeFrom escaped cs) = escapeFrom escaped cs := by
  induction cs generalizing escaped with
  | nil => cases escaped <;> simp [escapeFrom]
  | cons c cs ih =>
    by_cases hq : c = '"' ∧ escaped = false
    · obtain ⟨rfl, rfl⟩ := hq
      simp [escapeFrom, ih]
    · simp [escapeFrom, hq, ih]

theorem toList_escape (s : String) : (escape s).toList = escapeFrom false s.toList :=
  String.toList_ofList

theorem escape_escape (s : String) : escape (escape s) = escape s := by
  rw [escape, toList_escape, escapeFrom_escapeFrom]
  rfl

theorem mem_escapeFrom {escaped : Bool} {cs : List Char} {d : Char}
    (h : d ∈ escapeFrom escaped cs) : d ∈ cs ∨ d = '\\' := by
  induction cs generalizing escaped with
  | nil => cases escaped <;> simp_all [escapeFrom]
  | cons c cs ih =>
    simp only [escapeFrom, List.mem_append] at h
    rcases h with h | h
    · split at h
      · next hc =>
        simp only [hc.1, List.mem_cons, List.not_mem_nil, or_false] at h ⊢
        exact h.elim .inr fun h => .inl (.inl h)
      · exact .inl (by rw [List.mem_singleton.1 h]; exact List.mem_cons_self)
    · exact (ih h).imp (List.mem_cons_of_mem c) id

theorem mem_escapeFrom_of_mem {escaped : Bool} {cs : List Char} {d : Char} (h : d ∈ cs) :
    d ∈ escapeFrom escaped cs := by
  induction cs generalizing escaped with
  | nil => cases h
  | cons c cs ih =>
    rw [escapeFrom, List.mem_append]
    rcases List.mem_cons.1 h with rfl | h
    · left
      split <;> simp
    · exact .inr (ih h)

def Plain (cs : List Char) : Prop := ∀ c ∈ cs, c ≠ '"' ∧ c ≠ '\\'

instance (cs : List Char) : Decidable (Plain cs) :=
  List.decidableBAll (fun c => c ≠ '"' ∧ c ≠ '\\') cs

/-- Characters that neither quote nor escape stay in front as they are. -/
theorem escapeFrom_append {cs : List Char} (h : Plain cs) (ds : List Char) :
    escapeFrom false (cs ++ ds) = cs ++ escapeFrom false ds := by
  induction cs with
  | nil => rfl
  | cons c cs ih =>
    obtain ⟨hq, hb⟩ := h c List.mem_cons_self
    have hb : (c == '\\') = false := beq_eq_false_iff_ne.2 hb
    simp [escapeFrom, hq, hb, ih fun d hd => h d (List.mem_cons_of_mem c hd)]

theorem escapeFrom_eq_append {ds cs ys : List Char} (h : Plain cs)
    (he : escapeFrom false ds = cs ++ ys) :
    ∃ rest, ds = cs ++ rest ∧ escapeFrom false rest = ys := by
  induction cs generalizing ds with
  | nil => exact ⟨ds, rfl, he⟩
  | cons c cs ih =>
    obtain ⟨hq, hb⟩ := h c List.mem_cons_self
    cases ds with
    | nil => cases he
    | cons d ds =>
      rw [escapeFrom] at he
      by_cases hd : d = '"'
      · -- A quotation mark would have brought a backslash in front, which `cs` does not have.
        simp only [hd, and_self, ↓reduceIte, List.cons_append, List.cons.injEq] at he
        exact absurd he.1.symm hb
      · simp only [hd, false_and, ↓reduceIte, List.cons_append, List.nil_append,
          List.cons.injEq] at he
        obtain ⟨rfl, he⟩ := he
        rw [show (d == '\\' && !false) = false by simpa using hb] at he
        obtain ⟨rest, rfl, hrest⟩ := ih (fun c hc => h c (List.mem_cons_of_mem d hc)) he
        exact ⟨rest, rfl, hrest⟩

theorem escape_eq_self {s : String} (h : Plain s.toList) : escape s = s := by
  have := escapeFrom_append h []
  simp only [List.append_nil, escapeFrom, Bool.false_eq_true, ↓reduceIte] at this
  rw [escape, this, String.ofList_toList]

theorem escape_eq_empty_iff {s : String} : escape s = "" ↔ s = "" := by
  constructor
  · intro h
    rw [← String.toList_eq_nil_iff, toList_escape] at h
    rw [← String.toList_eq_nil_iff]
    cases hs : s.toList with
    | nil => rfl
    | cons c cs =>
      rw [hs] at h
      have hmem : c ∈ escapeFrom false (c :: cs) := mem_escapeFrom_of_mem List.mem_cons_self
      rw [h] at hmem
      cases hmem
  · rintro rfl
    rfl

theorem lowered_escape {s : String} (h : Lowered s) : Lowered (escape s) := fun c hc => by
  rw [toList_escape] at hc
  rcases mem_escapeFrom hc with hc | rfl
  · exact h c hc
  · decide

/-- A bare character neither ends a word nor opens a literal. -/
theorem not_isDelimiter_of_isBareChar {c : Char} (h : isBareChar c = true) :
    isDelimiter c = false ∧ isQuote c = false := by
  simp only [isBareChar, Bool.not_eq_true', Bool.or_eq_false_iff, beq_eq_false_iff_ne] at h
  obtain ⟨⟨⟨⟨⟨⟨⟨⟨hblank, h1⟩, h2⟩, h3⟩, h4⟩, h5⟩, h6⟩, h7⟩, h8⟩ := h
  have hspace : isSpace c = false := by
    rw [Bool.eq_false_iff]
    intro hs
    simp only [isSpace, Bool.or_eq_true, beq_iff_eq] at hs
    rcases hs with ((rfl | rfl) | rfl) | rfl <;> exact absurd hblank (by decide)
  simp [isDelimiter, punctuation?, isComparatorChar, isQuote, *]

theorem isBare_iff {s : String} : isBare s = true ↔
    s ≠ "" ∧ BooleanOp.ofKeyword? s = none ∧ ∀ c ∈ s.toList, isBareChar c = true := by
  simp [isBare, and_assoc]

theorem isComparatorRun_iff {s : String} : isComparatorRun s = true ↔
    s ≠ "" ∧ ∀ c ∈ s.toList, isComparatorChar c = true := by
  simp [isComparatorRun, isComparatorChar]

theorem ofKeyword?_eq_none_of_backslash {s : String} (h : '\\' ∈ s.toList) :
    BooleanOp.ofKeyword? s = none := by
  have hl : '\\' ∈ (lowerCase s).toList := by
    rw [lowerCase, String.toList_ofList]
    exact mem_lowerAfter_of_mem (by decide) h
  rw [BooleanOp.ofKeyword?, BooleanOp.ofExactKeyword?, List.find?_eq_none]
  intro op _ ho
  rw [← beq_iff_eq.1 ho] at hl
  cases op <;> exact absurd hl (by decide)

/-- What has to be written between quotes still has to be once it is escaped. -/
theorem isBare_escape {s : String} (h : isBare s = false) : isBare (escape s) = false := by
  rw [Bool.eq_false_iff] at h ⊢
  intro he
  obtain ⟨hne, hk, hall⟩ := isBare_iff.1 he
  have hs : ∀ c ∈ s.toList, isBareChar c = true := fun c hc => by
    apply hall
    rw [toList_escape]
    exact mem_escapeFrom_of_mem hc
  by_cases hb : '\\' ∈ s.toList
  · exact h (isBare_iff.2 ⟨fun h => hne (escape_eq_empty_iff.2 h),
      ofKeyword?_eq_none_of_backslash hb, hs⟩)
  · rw [escape_eq_self] at he
    · exact h he
    · intro c hc
      refine ⟨?_, fun h => hb (h ▸ hc)⟩
      rintro rfl
      exact absurd (hs _ hc) (by decide)

end ContextQuery.Cql
