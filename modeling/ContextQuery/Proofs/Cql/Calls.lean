import ContextQuery.Proofs.Cql.Place

namespace ContextQuery.Cql

namespace Cursor

def afterCalls (s : Cursor) : Nat → Cursor
  | 0 => s
  | n + 1 => (s.afterCalls n).next.2

def answer (s : Cursor) (n : Nat) : Except Fault Token := (s.afterCalls n).next.1

/-- Have the characters `taken` been taken from the text, and is this counted as the place? -/
structure Stands (text taken : List Char) (s : Cursor) : Prop where
  split : text = taken ++ s.rest
  position : s.position = .behind taken

end Cursor

/-- Are `chars`, behind `front`, the characters of the token in the text, and its places those of
its first and behind its last? The end of the text has no characters. -/
structure Token.Covers (text front chars : List Char) (t : Token) : Prop where
  lexeme : ∃ behind, text = front ++ (chars ++ behind) ∧
    (IsLexeme chars t.content behind ∨ t.kind = .endOfText ∧ chars = [] ∧ behind = [])
  start : t.start = .behind front
  stop : t.stop = byteLength (front ++ chars)

theorem Position.after_behind (front cs : List Char) :
    (Position.behind front).after cs = .behind (front ++ cs) := by
  rw [← after_start, ← after_start, after_append]

namespace Cursor
variable {text taken : List Char} {s u : Cursor} {t : Token} {fault : Fault}

theorem stands_ofText (text : String) : (ofText text).Stands text.toList [] := ⟨rfl, rfl⟩

/-- A call that gives a token takes some space and the characters of the token. -/
theorem Stands.of_ok (h : s.Stands text taken) (hn : s.next = (.ok t, u)) :
    ∃ gap chars, (∀ c ∈ gap, isSpace c = true) ∧ t.Covers text (taken ++ gap) chars ∧
      u.Stands text (taken ++ gap ++ chars) := by
  rcases cuts_of_next hn with ⟨gap, chars, hcuts⟩ | ⟨-, hspace⟩
  · have hsplit : text = taken ++ gap ++ (chars ++ u.rest) := by
      rw [h.split, hcuts.rest, List.append_assoc]
    obtain ⟨hstart, hstop⟩ := Token.eq_at_iff.1 hcuts.token
    rw [h.position, Position.after_behind] at hstart
    refine ⟨gap, chars, hcuts.space,
      ⟨⟨u.rest, hsplit, .inl (isLexeme_iff_takes.2 hcuts.takes)⟩, hstart, ?_⟩, ?_, ?_⟩
    · rw [hstop, hstart, byteLength_append _ chars]
      rfl
    · rw [hsplit, List.append_assoc _ chars]
    · rw [hcuts.position, h.position, Position.after_behind, Position.after_behind]
  · -- Behind the last token there is nothing but space, and then the end.
    obtain ⟨ht, rfl⟩ := Prod.mk.inj (hn.symm.trans (next_of_space hspace))
    cases ht
    have hend : (s.position.after s.rest) = .behind (taken ++ s.rest) := by
      rw [h.position, Position.after_behind]
    refine ⟨s.rest, [], hspace, ⟨⟨[], ?_, .inr ⟨rfl, rfl, rfl⟩⟩, hend, ?_⟩, ?_, ?_⟩
    · simp [h.split]
    · rw [List.append_nil]
      exact congrArg Position.offset hend
    · simp [h.split]
    · rw [List.append_nil]
      exact hend

/-- A call that fails takes all that is left. -/
theorem Stands.of_error (h : s.Stands text taken) (hn : s.next = (.error fault, u)) :
    u.Stands text (taken ++ s.rest) := by
  obtain ⟨-, -, -, -, -, -, -, -, rfl⟩ := next_eq_error_iff.1 hn
  refine ⟨?_, ?_⟩
  · simp [h.split]
  · rw [h.position, Position.after_behind]

/-- Whatever a call gives, it takes some characters, or none. -/
theorem Stands.next (h : s.Stands text taken) : ∃ more, s.next.2.Stands text (taken ++ more) := by
  cases hn : s.next with
  | mk answer u =>
    cases answer with
    | ok t =>
      obtain ⟨gap, chars, -, -, hu⟩ := h.of_ok hn
      rw [List.append_assoc] at hu
      exact ⟨gap ++ chars, hu⟩
    | error fault => exact ⟨s.rest, h.of_error hn⟩

/-- Further calls take further characters. -/
theorem Stands.afterCalls (h : s.Stands text taken) (n : Nat) :
    ∃ more, (s.afterCalls n).Stands text (taken ++ more) := by
  induction n with
  | zero => exact ⟨[], by rwa [List.append_nil]⟩
  | succ n ih =>
    obtain ⟨more, hn⟩ := ih
    obtain ⟨last, hlast⟩ := hn.next
    exact ⟨more ++ last, by rwa [← List.append_assoc]⟩

theorem afterCalls_add (s : Cursor) (m n : Nat) :
    s.afterCalls (m + n) = (s.afterCalls m).afterCalls n := by
  induction n with
  | zero => rfl
  | succ n ih => rw [← Nat.add_assoc, Cursor.afterCalls, ih, Cursor.afterCalls]

theorem next_of_answer {n : Nat} {x : Except Fault Token} (h : s.answer n = x) :
    (s.afterCalls n).next = (x, s.afterCalls (n + 1)) := Prod.ext h rfl

theorem offset_afterCalls_mono (text : String) {m n : Nat} (h : m ≤ n) :
    ((ofText text).afterCalls m).position.offset ≤ ((ofText text).afterCalls n).position.offset := by
  obtain ⟨k, rfl⟩ := Nat.exists_eq_add_of_le h
  obtain ⟨taken, hm⟩ := (stands_ofText text).afterCalls m
  obtain ⟨more, hn⟩ := hm.afterCalls k
  rw [afterCalls_add, hm.position, hn.position]
  change byteLength _ ≤ byteLength _
  rw [byteLength_append _ more]
  exact Nat.le_add_right _ _

end Cursor

/-- A token touches another one exactly if nothing stands between the two. -/
theorem Token.Covers.touches_iff {text front chars between chars' : List Char} {t t' : Token}
    (h : t.Covers text front chars) (h' : t'.Covers text (front ++ chars ++ between) chars') :
    t.touches t' = true ↔ between = [] := by
  have hstart : t'.start.offset = byteLength (front ++ chars ++ between) := by rw [h'.start]; rfl
  rw [Token.touches, beq_iff_eq, h.stop, hstart]
  constructor
  · exact fun he => eq_nil_of_byteLength_append_le (Nat.le_of_eq he.symm)
  · rintro rfl
    rw [List.append_nil]

/-- After every number of calls, failures among them, the cursor counts what has been taken from the
text; each token covers its characters, and two tokens touch exactly where nothing stands between
them. -/
theorem stands_afterCalls (text : String) :
    let s := Cursor.ofText text
    (∀ n, ∃ taken, (s.afterCalls n).Stands text.toList taken) ∧
    (∀ n t, s.answer n = .ok t → ∃ taken gap chars, (s.afterCalls n).Stands text.toList taken ∧
      (∀ c ∈ gap, isSpace c = true) ∧ t.Covers text.toList (taken ++ gap) chars ∧
      (s.afterCalls (n + 1)).Stands text.toList (taken ++ gap ++ chars)) ∧
    (∀ n fault, s.answer n = .error fault →
      (s.afterCalls (n + 1)).Stands text.toList text.toList) ∧
    (∀ m n, m ≤ n → (s.afterCalls m).position.offset ≤ (s.afterCalls n).position.offset) ∧
    ∀ m n t t', m < n → s.answer m = .ok t → s.answer n = .ok t' →
      ∃ front chars between chars', t.Covers text.toList front chars ∧
        t'.Covers text.toList (front ++ chars ++ between) chars' ∧
        (t.touches t' = true ↔ between = []) := by
  have hstands (n : Nat) : ∃ taken, ((Cursor.ofText text).afterCalls n).Stands text.toList taken :=
    (Cursor.stands_ofText text).afterCalls n
  refine ⟨hstands, fun n t ht => ?_, fun n fault hfault => ?_,
    fun m n => Cursor.offset_afterCalls_mono text, fun m n t t' hlt ht ht' => ?_⟩
  · obtain ⟨taken, hn⟩ := hstands n
    exact ⟨taken, (hn.of_ok (Cursor.next_of_answer ht)).imp fun gap => .imp fun chars h => ⟨hn, h⟩⟩
  · obtain ⟨taken, hn⟩ := hstands n
    have hend := hn.of_error (Cursor.next_of_answer hfault)
    rwa [← hn.split] at hend
  · obtain ⟨k, rfl⟩ := Nat.exists_eq_add_of_lt hlt
    obtain ⟨taken, hm⟩ := hstands m
    obtain ⟨gap, chars, -, hcovers, hnext⟩ := hm.of_ok (Cursor.next_of_answer ht)
    -- The later token is found behind what the first one took and what was taken since.
    obtain ⟨more, hn⟩ := hnext.afterCalls k
    rw [← Cursor.afterCalls_add, Nat.add_right_comm] at hn
    obtain ⟨gap', chars', -, hcovers', -⟩ := hn.of_ok (Cursor.next_of_answer ht')
    rw [List.append_assoc _ more] at hcovers'
    exact ⟨taken ++ gap, chars, more ++ gap', chars', hcovers, hcovers',
      hcovers.touches_iff hcovers'⟩

def brokenText : String := "é=\n 'x"

theorem stands_afterCalls_brokenText :
    let s := Cursor.ofText brokenText
    let word : Token := ⟨.bareword, "é", ⟨1, 1, 0⟩, 2⟩
    let sign : Token := ⟨.comparator, "=", ⟨1, 2, 2⟩, 3⟩
    s.answer 0 = .ok word ∧ s.answer 1 = .ok sign ∧
    s.answer 2 = .error ⟨.unterminatedLiteral, some ⟨2, 2, 5⟩⟩ ∧
    s.answer 3 = .ok (.endOfText ⟨2, 4, 7⟩) ∧
    (∃ taken gap chars, (s.afterCalls 1).Stands brokenText.toList taken ∧
      (∀ c ∈ gap, isSpace c = true) ∧ sign.Covers brokenText.toList (taken ++ gap) chars ∧
      (s.afterCalls 2).Stands brokenText.toList (taken ++ gap ++ chars)) ∧
    (s.afterCalls 3).Stands brokenText.toList brokenText.toList ∧
    (s.afterCalls 0).position.offset ≤ (s.afterCalls 3).position.offset ∧
    ∃ front chars between chars', word.Covers brokenText.toList front chars ∧
      sign.Covers brokenText.toList (front ++ chars ++ between) chars' ∧
      (word.touches sign = true ↔ between = []) := by
  obtain ⟨-, htoken, hfault, hoffset, htouches⟩ := stands_afterCalls brokenText
  have hword : (Cursor.ofText brokenText).answer 0 = .ok ⟨.bareword, "é", ⟨1, 1, 0⟩, 2⟩ := by
    decide +kernel
  have hsign : (Cursor.ofText brokenText).answer 1 = .ok ⟨.comparator, "=", ⟨1, 2, 2⟩, 3⟩ := by
    decide +kernel
  have hliteral : (Cursor.ofText brokenText).answer 2 =
      .error ⟨.unterminatedLiteral, some ⟨2, 2, 5⟩⟩ := by decide +kernel
  exact ⟨hword, hsign, hliteral, by decide +kernel, htoken 1 _ hsign, hfault 2 _ hliteral,
    hoffset 0 3 (by decide), htouches 0 1 _ _ (by decide) hword hsign⟩

end ContextQuery.Cql
