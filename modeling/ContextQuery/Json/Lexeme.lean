import ContextQuery.Json.Numeral

namespace ContextQuery.Json

inductive Lexeme
  | openBracket
  | closeBracket
  | openBrace
  | closeBrace
  | comma
  | colon
  | string (s : String)
  | scalar (v : Json)

namespace Lexeme

def isSpace (c : Char) : Bool := c == ' ' || c == '\t' || c == '\r' || c == '\n'

def mark? (c : Char) : Option Lexeme :=
  if c = '[' then some openBracket
  else if c = ']' then some closeBracket
  else if c = '\x7b' then some openBrace
  else if c = '\x7d' then some closeBrace
  else if c = ',' then some comma
  else if c = ':' then some colon
  else none

def hexValue? (c : Char) : Option Nat :=
  if '0' ≤ c ∧ c ≤ '9' then some (c.toNat - '0'.toNat)
  else if 'a' ≤ c ∧ c ≤ 'f' then some (c.toNat - 'a'.toNat + 10)
  else if 'A' ≤ c ∧ c ≤ 'F' then some (c.toNat - 'A'.toNat + 10)
  else none

def unit? (a b c d : Char) : Option Nat := do
  let a ← hexValue? a
  let b ← hexValue? b
  let c ← hexValue? c
  let d ← hexValue? d
  return ((a * 16 + b) * 16 + c) * 16 + d

def isHighSurrogate (n : Nat) : Bool := 0xD800 ≤ n && n < 0xDC00

def isLowSurrogate (n : Nat) : Bool := 0xDC00 ≤ n && n < 0xE000

/-- What follows the four digits of a unit: a high surrogate needs a low one behind it, and a low
one does not stand alone. -/
def afterUnit (n : Nat) (rest : List Char) : Option (Char × List Char) :=
  if isHighSurrogate n then
    match rest with
    | backslash :: u :: w :: x :: y :: z :: after =>
      if backslash = '\\' ∧ u = 'u' then do
        let low ← unit? w x y z
        if isLowSurrogate low then
          return (Char.ofNat (0x10000 + (n - 0xD800) * 0x400 + (low - 0xDC00)), after)
        else none
      else none
    | _ => none
  else if isLowSurrogate n then none
  else some (Char.ofNat n, rest)

def letter? (c : Char) : Option Char :=
  if c = '"' then some '"'
  else if c = '\\' then some '\\'
  else if c = '/' then some '/'
  else if c = 'b' then some '\x08'
  else if c = 'f' then some '\x0c'
  else if c = 'n' then some '\n'
  else if c = 'r' then some '\r'
  else if c = 't' then some '\t'
  else none

def escape? : List Char → Option (Char × List Char)
  | [] => none
  | c :: rest =>
    if c = 'u' then
      match rest with
      | w :: x :: y :: z :: rest => (unit? w x y z).bind fun n => afterUnit n rest
      | _ => none
    else (letter? c).map fun c => (c, rest)

theorem afterUnit_length {n : Nat} {cs rest : List Char} {c : Char}
    (h : afterUnit n cs = some (c, rest)) : rest.length ≤ cs.length := by
  unfold afterUnit at h
  split at h
  · split at h
    · obtain ⟨-, h⟩ := Option.ite_none_right_eq_some.1 h
      obtain ⟨low, -, h⟩ := Option.bind_eq_some_iff.1 h
      obtain ⟨-, h⟩ := Option.ite_none_right_eq_some.1 h
      obtain ⟨-, rfl⟩ := Prod.mk.inj (Option.some.inj h)
      simp only [List.length_cons]
      omega
    · cases h
  · obtain ⟨-, h⟩ := Option.ite_none_left_eq_some.1 h
    obtain ⟨-, rfl⟩ := Prod.mk.inj (Option.some.inj h)
    exact Nat.le_refl _

theorem escape?_length {cs rest : List Char} {c : Char} (h : escape? cs = some (c, rest)) :
    rest.length < cs.length := by
  unfold escape? at h
  split at h
  · cases h
  · split at h
    · split at h
      · obtain ⟨n, -, h⟩ := Option.bind_eq_some_iff.1 h
        have := afterUnit_length h
        simp only [List.length_cons]
        omega
      · cases h
    · obtain ⟨d, -, h⟩ := Option.map_eq_some_iff.1 h
      cases h
      exact Nat.lt_succ_self _

/-- The characters of a string up to its closing quote, and the text behind that. A character below
U+0020 has to be escaped. -/
def stringBody? : List Char → Option (List Char × List Char)
  | [] => none
  | c :: rest =>
    if c = '"' then some ([], rest)
    else if c = '\\' then
      match h : escape? rest with
      | none => none
      | some (c, after) =>
        have : after.length < rest.length := escape?_length h
        (stringBody? after).map fun (body, after) => (c :: body, after)
    else if c.toNat < 0x20 then none
    else (stringBody? rest).map fun (body, after) => (c :: body, after)
termination_by cs => cs.length

theorem stringBody?_length {cs body rest : List Char} (h : stringBody? cs = some (body, rest)) :
    rest.length < cs.length := by
  fun_induction stringBody? cs generalizing body with
  | case1 => cases h
  | case2 => cases h; exact Nat.lt_succ_self _
  | case3 => cases h
  | case4 cs _ d after _ hlt ih =>
    obtain ⟨p, hp, he⟩ := Option.map_eq_some_iff.1 h
    cases he
    have := ih hp
    simp only [List.length_cons]
    omega
  | case5 => cases h
  | case6 c cs _ _ _ ih =>
    obtain ⟨p, hp, he⟩ := Option.map_eq_some_iff.1 h
    cases he
    exact Nat.lt_succ_of_lt (ih hp)

def isNumeralChar (c : Char) : Bool :=
  c.isDigit || c == '+' || c == '-' || c == '.' || c == 'e' || c == 'E'

def words : List (List Char × Json) :=
  [(['n', 'u', 'l', 'l'], .null), (['t', 'r', 'u', 'e'], .bool true),
    (['f', 'a', 'l', 's', 'e'], .bool false)]

def word? (cs : List Char) : Option (Lexeme × List Char) :=
  words.findSome? fun (w, v) => if w.isPrefixOf cs then some (scalar v, cs.drop w.length) else none

/-- A lexeme that is not a mark and begins with `c`, and the text behind it. A numeral is read as
far as its characters go. -/
def other? (c : Char) (rest : List Char) : Option (Lexeme × List Char) :=
  if c = '"' then
    (stringBody? rest).map fun (body, after) => (string (String.ofList body), after)
  else if c.isDigit || c == '-' then do
    let numeral ← Numeral.ofChars? (c :: rest.takeWhile isNumeralChar)
    let number ← numeral.number?
    return (scalar (.number number), rest.dropWhile isNumeralChar)
  else word? (c :: rest)

theorem word?_length {cs rest : List Char} {l : Lexeme} (h : word? cs = some (l, rest)) :
    rest.length < cs.length := by
  obtain ⟨⟨w, v⟩, hw, h⟩ := List.exists_of_findSome?_eq_some h
  obtain ⟨hpre, h⟩ := Option.ite_none_right_eq_some.1 h
  cases h
  have hlen := (List.isPrefixOf_iff_prefix.1 hpre).length_le
  have hpos : 0 < w.length := by
    simp only [words, List.mem_cons, List.not_mem_nil, or_false, Prod.mk.injEq] at hw
    rcases hw with ⟨h, -⟩ | ⟨h, -⟩ | ⟨h, -⟩ <;> subst h <;> decide
  simp only [List.length_drop]
  omega

theorem other?_length {c : Char} {cs rest : List Char} {l : Lexeme}
    (h : other? c cs = some (l, rest)) : rest.length < (c :: cs).length := by
  unfold other? at h
  split at h
  · obtain ⟨p, hp, h⟩ := Option.map_eq_some_iff.1 h
    cases h
    exact Nat.lt_succ_of_lt (stringBody?_length hp)
  · split at h
    · simp only [Option.bind_eq_bind, Option.bind_eq_some_iff] at h
      obtain ⟨numeral, -, number, -, h⟩ := h
      cases h
      exact Nat.lt_succ_of_le (List.dropWhile_sublist _).length_le
    · exact word?_length h

/-- All lexemes of a text; `done` holds those in front of it, nearest first. -/
def scanAfter (done : List Lexeme) : List Char → Option (List Lexeme)
  | [] => some done.reverse
  | c :: rest =>
    if isSpace c then scanAfter done rest
    else match mark? c with
      | some m => scanAfter (m :: done) rest
      | none =>
        match h : other? c rest with
        | none => none
        | some (l, after) =>
          have : after.length ≤ rest.length := Nat.le_of_lt_succ (other?_length h)
          scanAfter (l :: done) after
termination_by cs => cs.length

def scan? (s : String) : Option (List Lexeme) := scanAfter [] s.toList

end Lexeme

end ContextQuery.Json
