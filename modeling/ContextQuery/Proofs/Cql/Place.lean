import ContextQuery.Diagnostic
import ContextQuery.Proofs.Cql.Partition
import ContextQuery.Proofs.Cql.Refusal
import Mathlib.Data.List.Induction

namespace ContextQuery.Cql

/-- The place behind some characters, counted from all of them: one line more than there are line
feeds, one column more than there are characters behind the last of them, and their bytes. -/
def Position.behind (front : List Char) : Position :=
  ⟨1 + front.count '\n', 1 + (front.reverse.takeWhile (· ≠ '\n')).length, byteLength front⟩

/-- What is counted character by character is what all of them count. -/
theorem Position.after_start (front : List Char) : Position.start.after front = .behind front := by
  induction front using List.reverseRecOn with
  | nil => rfl
  | append_singleton front c ih =>
    rw [after_append, ih]
    change (Position.behind front).advance c = _
    rw [advance, behind, behind, byteLength_append, List.count_append, List.reverse_append,
      List.reverse_singleton, List.singleton_append, List.takeWhile_cons]
    by_cases hc : c = '\n'
    · simp [hc, byteLength, Nat.add_assoc]
    · simp [hc, byteLength, Nat.add_comm]

inductive Landmark (text : String) : Position → Prop
  | token {t : Token} (mem : t ∈ (Scan.ofText text).tokens) : Landmark text t.start
  | endOfText {ts : List Token} {p : Position}
    (tokens : tokenize text = .ok (ts ++ [.endOfText p])) : Landmark text p
  | literal {ts : List Token} {front behind : List Char} {mark : Char}
    (breaks : Breaks text.toList ts front mark behind) : Landmark text (.behind front)

section Landmark
variable {text : String} {p : Position}

/-- A token stands behind what is in front of it. -/
theorem exists_start_eq_behind {t : Token} (h : t ∈ (Scan.ofText text).tokens) :
    ∃ front behind, text.toList = front ++ behind ∧ t.start = .behind front := by
  have hplace {scanned rest : List Char}
      (hparts : Parts .start scanned rest (Scan.ofText text).tokens) :
      ∃ front behind, scanned = front ++ behind ∧ t.start = .behind front := by
    obtain ⟨front, taken, behind, hsplit, -, hstart, -⟩ := hparts.lexemes t h
    exact ⟨front, taken ++ behind, hsplit, hstart.trans (Position.after_start front)⟩
  cases hending : (Scan.ofText text).ending with
  | complete p =>
    have hscan : Scan.ofText text = ⟨(Scan.ofText text).tokens, .complete p⟩ := by rw [← hending]
    exact hplace (scan_complete_iff.1 hscan).1
  | broken fault =>
    obtain ⟨front, mark, behind, hbreaks, -⟩ := scan_broken_iff.1 (by rw [← hending])
    obtain ⟨before, after, rfl, hstart⟩ := hplace hbreaks.parts
    exact ⟨before, after ++ mark :: behind, by rw [hbreaks.split, List.append_assoc], hstart⟩

theorem Landmark.exists_eq_behind (h : Landmark text p) :
    ∃ front behind, text.toList = front ++ behind ∧ p = .behind front := by
  cases h with
  | token mem => exact exists_start_eq_behind mem
  | endOfText tokens =>
    obtain ⟨-, rfl⟩ := scan_complete_iff.1 (tokenize_inv tokens)
    exact ⟨text.toList, [], (List.append_nil _).symm, Position.after_start _⟩
  | literal breaks => exact ⟨_, _, breaks.split, rfl⟩

theorem Position.offset_behind_le {front behind : List Char} (h : text.toList = front ++ behind) :
    (Position.behind front).offset ≤ text.utf8ByteSize := by
  rw [← byteLength_toList, h, byteLength_append]
  exact Nat.le_add_right _ _

end Landmark

/-- Words that are read as operators are the names of operators. -/
theorem Refuses.ne_unknownOperator {n : Nat} {phrase : Phrase} {scope : Scope} {r : Registry}
    {ts place : List Token} {cause : Cause} (h : Refuses n phrase scope r ts cause place) :
    cause ≠ .unknownOperator := by
  have hmodifiers {ts place : List Token} {cause : Cause} (h : RefusesModifiers ts cause place) :
      cause ≠ .unknownOperator := by
    induction h with
    | name | value => simp
    | flag _ _ _ _ _ ih => exact ih
    | comparison _ _ _ _ _ _ ih => exact ih
  induction h with
  | height | nesting | endOfText | start | unclosed | declaration => simp
  | operator _ modifiers => exact hmodifiers modifiers
  | relation _ _ modifiers => exact hmodifiers modifiers
  | first _ ih | further _ _ _ ih | operand _ _ _ ih | chain _ _ _ _ _ ih | group _ _ ih => exact ih
  | indexed _ _ _ _ ih | declared _ _ _ ih => exact ih

theorem Cause.message_ne {cause : Cause} (h : cause ≠ .unknownOperator) :
    cause.message ≠ "Unknown boolean operator" := by
  -- A message with a token in it has another beginning.
  have hfront {front found behind whole : String} (h : ¬ front.toList <+: whole.toList) :
      front ++ found ++ behind ≠ whole := by
    rintro rfl
    rw [String.toList_append, String.toList_append, List.append_assoc] at h
    exact h (List.prefix_append _ _)
  cases cause with
  | unknownOperator => exact absurd rfl h
  | expectedEnd | unexpected => exact hfront (by simp)
  | _ => decide

section Text
variable {choice : ServerChoice} {text : String} {fault : Fault}

/-- What can be said of a fault in a text that is not blank. -/
theorem fault_of_not_blank (hb : Text.isBlankText text = false)
    (h : read choice text = .error fault) :
    fault.cause ≠ .unknownOperator ∧ ∃ p, fault.position = some p ∧ Landmark text p := by
  rcases explains_of_read hb h with hbroken | ⟨cause, place, hrefuses, hview, rfl⟩
  · obtain ⟨front, mark, behind, hbreaks, rfl⟩ := scan_broken_iff.1 (by rw [← hbroken])
    refine ⟨by simp, _, rfl, ?_⟩
    rw [Position.after_start]
    exact .literal hbreaks
  · have hcause : cause ≠ .unknownOperator := by
      cases hrefuses with
      | query query => exact query.ne_unknownOperator
      | rest => simp
    cases place with
    | cons t place =>
      exact ⟨hcause, _, rfl, .token (hrefuses.suffix.subset List.mem_cons_self)⟩
    | nil =>
      cases hending : (Scan.ofText text).ending with
      | complete p => exact ⟨hcause, p, rfl, .endOfText (tokenize_eq_ok hending rfl)⟩
      | broken fault =>
        rw [hending] at hview
        cases hview

/-- Every text that is refused is refused as a fault of its syntax. It has a place unless the text
is blank, and then one that the text has. -/
theorem fault_place (h : read choice text = .error fault) :
    fault.diagnostic.kind = "syntax" ∧ fault.diagnostic.position? = fault.position ∧
    (fault.position = none ↔ ∀ c ∈ text.toList, Text.isBlank c = true) ∧
    (∀ p ∈ fault.position, Landmark text p ∧ p.offset ≤ text.utf8ByteSize ∧
      ∃ front behind, text.toList = front ++ behind ∧ p = .behind front) ∧
    fault.cause.message ≠ "Unknown boolean operator" := by
  refine ⟨rfl, rfl, ?_⟩
  rw [← List.all_eq_true]
  cases hb : Text.isBlankText text with
  | true =>
    rw [read, hb] at h
    cases h
    exact ⟨iff_of_true rfl hb, fun p hp => (Option.not_mem_none p hp).elim, by decide⟩
  | false =>
    obtain ⟨hcause, p, hposition, hlandmark⟩ := fault_of_not_blank hb h
    obtain ⟨front, behind, hsplit, rfl⟩ := hlandmark.exists_eq_behind
    refine ⟨?_, fun q hq => ?_, Cause.message_ne hcause⟩
    · rw [hposition]
      exact iff_of_false (Option.some_ne_none _) (Bool.eq_false_iff.1 hb)
    · obtain rfl : Position.behind front = q := Option.some.inj (hposition.symm.trans hq)
      exact ⟨hlandmark, Position.offset_behind_le hsplit, front, behind, hsplit, rfl⟩

end Text

/-- A group that is not closed, on the second line and behind a character of two bytes. -/
def openGroupText : String := "fish or\n(title=\"é\""

theorem fault_place_openGroupText :
    read .standard openGroupText = .error ⟨.missingParenthesis, some ⟨2, 11, 19⟩⟩ ∧
      Landmark openGroupText ⟨2, 11, 19⟩ ∧
      ∃ front behind, openGroupText.toList = front ++ behind ∧
        (⟨2, 11, 19⟩ : Position) = .behind front := by
  have hfails : (read .standard openGroupText).bind (fun _ => .ok ()) =
      .error ⟨.missingParenthesis, some ⟨2, 11, 19⟩⟩ := by decide +kernel
  have h : read .standard openGroupText = .error ⟨.missingParenthesis, some ⟨2, 11, 19⟩⟩ :=
    (bind_eq_error_iff.1 hfails).resolve_right fun ⟨_, _, hok⟩ => nomatch hok
  obtain ⟨-, -, -, hplace, -⟩ := fault_place h
  obtain ⟨hlandmark, -, hfront⟩ := hplace _ rfl
  exact ⟨h, hlandmark, hfront⟩

end ContextQuery.Cql
