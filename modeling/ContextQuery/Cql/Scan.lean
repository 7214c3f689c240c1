import ContextQuery.Cql.Fault
import ContextQuery.Cql.Token

namespace ContextQuery.Cql

def isSpace (c : Char) : Bool := c == ' ' || c == '\t' || c == '\r' || c == '\n'

def isComparatorChar (c : Char) : Bool := c == '<' || c == '>' || c == '='

def isQuote (c : Char) : Bool := c == '"' || c == '\x27'

def punctuation? (c : Char) : Option TokenKind :=
  if c = '(' then some .openParen
  else if c = ')' then some .closeParen
  else if c = '/' then some .slash
  else none

/-- The characters that end a word. A quotation mark inside a word does not. -/
def isDelimiter (c : Char) : Bool :=
  (punctuation? c).isSome || isComparatorChar c || isSpace c

/-- The characters of a literal up to its closing mark, and the text behind that. A backslash takes
its meaning from the next character, and both stay in the literal. -/
def splitLiteral (mark : Char) (escaped : Bool) : List Char → Option (List Char × List Char)
  | [] => none
  | c :: rest =>
    if c = mark ∧ escaped = false then some ([], rest)
    else (splitLiteral mark (c == '\\' && !escaped) rest).map fun (body, after) => (c :: body, after)

structure Cursor where
  rest : List Char
  position : Position

namespace Cursor

def ofText (text : String) : Cursor := ⟨text.toList, .start⟩

def skipWhile (s : Cursor) (p : Char → Bool) : Cursor :=
  ⟨s.rest.dropWhile p, s.position.after (s.rest.takeWhile p)⟩

def run (s : Cursor) (kind : TokenKind) (p : Char → Bool) : Token × Cursor :=
  let after := s.skipWhile p
  (⟨kind, String.ofList (s.rest.takeWhile p), s.position, after.position.offset⟩, after)

def single (s : Cursor) (kind : TokenKind) (c : Char) (rest : List Char) : Token × Cursor :=
  let after : Cursor := ⟨rest, s.position.advance c⟩
  (⟨kind, String.singleton c, s.position, after.position.offset⟩, after)

/-- The token of a literal, read behind its opening mark. Without a closing mark the whole text has
been read in vain. -/
def literal (s : Cursor) (mark : Char) (rest : List Char) : Except Fault Token × Cursor :=
  match splitLiteral mark false rest with
  | some (body, left) =>
    let after : Cursor := ⟨left, s.position.after (mark :: body ++ [mark])⟩
    (.ok ⟨.quoted, String.ofList body, s.position, after.position.offset⟩, after)
  | none => (.error ⟨.unterminatedLiteral, some s.position⟩, ⟨[], s.position.after s.rest⟩)

/-- The token that begins with the character `c`. Parentheses and slashes stand alone, a run of `<`,
`>` and `=` is one comparator, a quotation mark opens a literal, and any other character begins a
word. -/
def tokenAt (s : Cursor) (c : Char) (rest : List Char) : Except Fault Token × Cursor :=
  match punctuation? c with
  | some kind =>
    let (t, after) := s.single kind c rest
    (.ok t, after)
  | none =>
    if isComparatorChar c then
      let (t, after) := s.run .comparator isComparatorChar
      (.ok t, after)
    else if isQuote c then s.literal c rest
    else
      let (t, after) := s.run .bareword fun c => !isDelimiter c
      (.ok t, after)

/-- The next token and the cursor behind it. Behind the last token comes the end of the text, again
and again. -/
def next (s : Cursor) : Except Fault Token × Cursor :=
  let s := s.skipWhile isSpace
  match s.rest with
  | [] => (.ok (.endOfText s.position), s)
  | c :: rest => s.tokenAt c rest

end Cursor

theorem splitLiteral_length {mark : Char} {escaped : Bool} {cs body rest : List Char}
    (h : splitLiteral mark escaped cs = some (body, rest)) : rest.length < cs.length := by
  induction cs generalizing escaped body with
  | nil => cases h
  | cons c cs ih =>
    unfold splitLiteral at h
    split at h
    · cases h; exact Nat.lt_succ_self _
    · obtain ⟨p, hp, he⟩ := Option.map_eq_some_iff.1 h
      cases he
      exact Nat.lt_succ_of_lt (ih hp)

namespace Cursor

theorem length_skipWhile_le (s : Cursor) (p : Char → Bool) :
    (s.skipWhile p).rest.length ≤ s.rest.length := (List.dropWhile_sublist _).length_le

theorem length_skipWhile_lt {s : Cursor} {p : Char → Bool} {c : Char} {rest : List Char}
    (hs : s.rest = c :: rest) (hc : p c = true) :
    (s.skipWhile p).rest.length < s.rest.length := by
  simp only [skipWhile, hs, List.dropWhile_cons, hc, ↓reduceIte, List.length_cons]
  exact Nat.lt_succ_of_le (List.dropWhile_sublist _).length_le

theorem not_of_skipWhile {s : Cursor} {p : Char → Bool} {c : Char} {rest : List Char}
    (h : (s.skipWhile p).rest = c :: rest) : p c = false := by
  have := List.head?_dropWhile_not p s.rest
  rw [show s.rest.dropWhile p = c :: rest from h] at this
  exact this

/-- A token takes at least one character. -/
theorem length_tokenAt_lt {s after : Cursor} {c : Char} {rest : List Char} {t : Token}
    (hs : s.rest = c :: rest) (hc : isSpace c = false) (h : s.tokenAt c rest = (.ok t, after)) :
    after.rest.length < s.rest.length := by
  unfold tokenAt at h
  split at h
  · obtain ⟨-, rfl⟩ := Prod.mk.inj h
    simp only [hs, List.length_cons, Nat.lt_succ_self]
  · next hp =>
    split at h
    · next hk =>
      obtain ⟨-, rfl⟩ := Prod.mk.inj h
      exact length_skipWhile_lt hs hk
    · next hk =>
      split at h
      · unfold literal at h
        split at h
        · next hl =>
          obtain ⟨-, rfl⟩ := Prod.mk.inj h
          rw [hs]
          exact Nat.lt_succ_of_lt (splitLiteral_length hl)
        · cases h
      · obtain ⟨-, rfl⟩ := Prod.mk.inj h
        exact length_skipWhile_lt hs (by simp [isDelimiter, hp, hk, hc])

theorem length_next_lt {s after : Cursor} {t : Token} (h : s.next = (.ok t, after))
    (hk : t.kind ≠ .endOfText) : after.rest.length < s.rest.length := by
  unfold next at h
  dsimp only at h
  split at h
  · cases h
    exact absurd rfl hk
  · next c rest hs =>
    exact Nat.lt_of_lt_of_le (length_tokenAt_lt hs (not_of_skipWhile hs) h)
      (length_skipWhile_le s _)

end Cursor

/-- How the tokens of a text end: with the text, or with a literal that is never closed. -/
inductive Ending
  | complete (position : Position)
  | broken (fault : Fault)
  deriving DecidableEq

structure Scan where
  tokens : List Token
  ending : Ending
  deriving DecidableEq

namespace Scan

/-- The scan of what is left of a text; `done` holds the tokens in front, nearest first. -/
def after (done : List Token) (s : Cursor) : Scan :=
  match h : s.next with
  | (.ok t, rest) =>
    if hk : t.kind = .endOfText then ⟨done.reverse, .complete t.start⟩
    else
      have : rest.rest.length < s.rest.length := Cursor.length_next_lt h hk
      after (t :: done) rest
  | (.error fault, _) => ⟨done.reverse, .broken fault⟩
termination_by s.rest.length

def ofText (text : String) : Scan := after [] (.ofText text)

def toList (s : Scan) : Except Fault (List Token) :=
  match s.ending with
  | .complete p => .ok (s.tokens ++ [.endOfText p])
  | .broken fault => .error fault

end Scan

def tokenize (text : String) : Except Fault (List Token) := (Scan.ofText text).toList

end ContextQuery.Cql
