import ContextQuery.Cql.Scan
import ContextQuery.Except
import ContextQuery.Query.Limits
import ContextQuery.Text.Blank

namespace ContextQuery.Cql

structure Scope where
  field : String
  relation : String
  modifiers : List Modifier

/-- What has been read: the tree and its height, the context sets registered so far, and the tokens
still to come. -/
structure Parsed where
  node : Node
  height : Nat
  registry : Registry
  rest : List Token

namespace Ending

def position? : Ending → Option Position
  | .complete p => some p
  | .broken fault => fault.position

def faultAt (e : Ending) (ts : List Token) (cause : Cause) : Fault :=
  match ts with
  | [] => ⟨cause, e.position?⟩
  | t :: _ => ⟨cause, some t.start⟩

/-- Brings the next token into view. A literal that is never closed is reported as soon as it would
be the next one. -/
def view (e : Ending) (ts : List Token) : Except Fault Unit :=
  match ts, e with
  | [], .broken fault => .error fault
  | _, _ => .ok ()

end Ending

def expect (e : Ending) (cause : Cause) (p : Token → Bool) (ts : List Token) :
    Except Fault (Token × List Token) :=
  match ts with
  | [] => .error (e.faultAt ts cause)
  | t :: rest =>
    if p t then do
      e.view rest
      return (t, rest)
    else .error (e.faultAt ts cause)

def word (e : Ending) (cause : Cause) (ts : List Token) : Except Fault (Token × List Token) :=
  expect e cause Token.isWord ts

def Parsed.close (e : Ending) (p : Parsed) : Except Fault Parsed := do
  let (_, rest) ← expect e .missingParenthesis (·.kind == .closeParen) p.rest
  return { p with rest := rest }

def namedModifier (e : Ending) (name : Token) : List Token → Except Fault (Modifier × List Token)
  | [] => .ok (.flag name.lower, [])
  | comparator :: rest =>
    if comparator.kind = .comparator then do
      e.view rest
      let (value, rest) ← word e .invalidModifierRelation rest
      return (⟨name.lower, comparator.value, value.lower⟩, rest)
    else .ok (.flag name.lower, comparator :: rest)

def modifier (e : Ending) (ts : List Token) : Except Fault (Modifier × List Token) := do
  e.view ts
  let (name, rest) ← expect e .invalidModifier (fun t => t.isWord && !t.value.isEmpty) ts
  namedModifier e name rest

theorem expect_eq_ok {e : Ending} {cause : Cause} {p : Token → Bool} {ts rest : List Token}
    {t : Token} (h : expect e cause p ts = .ok (t, rest)) : ts = t :: rest := by
  cases ts with
  | nil => cases h
  | cons u ts =>
    dsimp only [expect] at h
    split at h
    · obtain ⟨-, -, h⟩ := bind_eq_ok_iff.1 h
      cases h
      rfl
    · cases h

theorem namedModifier_length {e : Ending} {name : Token} {ts rest : List Token} {m : Modifier}
    (h : namedModifier e name ts = .ok (m, rest)) : rest.length ≤ ts.length := by
  cases ts with
  | nil => cases h; exact Nat.le_refl _
  | cons t ts =>
    dsimp only [namedModifier] at h
    split at h
    · obtain ⟨-, -, h⟩ := bind_eq_ok_iff.1 h
      obtain ⟨⟨value, left⟩, hw, h⟩ := bind_eq_ok_iff.1 h
      cases h
      rw [expect_eq_ok hw]
      simp only [List.length_cons]
      omega
    · cases h
      exact Nat.le_refl _

theorem modifier_length {e : Ending} {ts rest : List Token} {m : Modifier}
    (h : modifier e ts = .ok (m, rest)) : rest.length < ts.length := by
  obtain ⟨-, -, h⟩ := bind_eq_ok_iff.1 h
  obtain ⟨⟨name, left⟩, hn, h⟩ := bind_eq_ok_iff.1 h
  rw [expect_eq_ok hn]
  exact Nat.lt_succ_of_le (namedModifier_length h)

def modifiers (e : Ending) : List Token → Except Fault (List Modifier × List Token)
  | [] => .ok ([], [])
  | slash :: ts =>
    if slash.kind = .slash then
      match h : modifier e ts with
      | .error fault => .error fault
      | .ok (m, rest) =>
        have : rest.length < ts.length := modifier_length h
        (modifiers e rest).map fun (more, left) => (m :: more, left)
    else .ok ([], slash :: ts)
termination_by ts => ts.length

def Token.continues (comparators : Bool) (t : Token) : Bool :=
  t.kind == .slash || t.kind == .bareword || (comparators && t.kind == .comparator)

def adjacent (comparators : Bool) (last : Token) : List Token → List Token × List Token
  | [] => ([], [])
  | t :: rest =>
    if t.continues comparators && last.touches t then
      let (run, left) := adjacent comparators t rest
      (t :: run, left)
    else ([], t :: rest)

/-- An identifier that begins with the word `first`. A quoted one is that word alone. -/
def identifier (e : Ending) (comparators : Bool) (first : Token) (rest : List Token) :
    Except Fault (String × List Token) :=
  if first.kind = .quoted then .ok (first.lower, rest)
  else do
    let (run, left) := adjacent comparators first rest
    e.view left
    return (String.join ((first :: run).map Token.lower), left)

/-- A declaration, read behind its mark: a prefix and an identifier with `=` between them, or an
identifier alone. -/
def declaration (e : Ending) (ts : List Token) :
    Except Fault ((String × String) × List Token) := do
  let (first, rest) ← word e .expectedWord ts
  match rest with
  | sign :: more =>
    if sign.isComparator "=" then do
      e.view more
      let (start, left) ← word e .expectedWord more
      let (id, left) ← identifier e true start left
      return ((first.lower, id), left)
    else do
      let (id, left) ← identifier e false first rest
      return ((unnamedPrefix, id), left)
  | [] => return ((unnamedPrefix, first.lower), [])

/-- Can the token be a relation, so that the word in front of it is an index? -/
def Token.isRelation (t : Token) : Bool := t.kind == .comparator || (t.isWord && !t.isKeyword)

def operator (keyword : Token) : Except Fault BooleanOp :=
  match BooleanOp.ofKeyword? keyword.lower with
  | some op => .ok op
  | none => .error ⟨.unknownOperator, some keyword.start⟩

/-- The clauses that follow `left` with an operator in front of each. Operators bind equally and to
the left. -/
def chain (e : Ending) (clause : Registry → List Token → Except Fault Parsed) (left : Parsed) :
    Except Fault Parsed :=
  match left.rest with
  | [] => .ok left
  | t :: rest =>
    if t.isKeyword then do
      e.view rest
      let op ← operator t
      let (modifiers, rest) ← modifiers e rest
      let right ← clause left.registry rest
      let height := 1 + max left.height right.height
      if _h : maxHeight < height then .error ⟨.nestedTooDeeply, some t.start⟩
      else
        chain e clause
          ⟨.boolean op modifiers left.node right.node, height, right.registry, right.rest⟩
    else .ok left
termination_by maxHeight - left.height

def query (e : Ending) (clause : Registry → List Token → Except Fault Parsed) (r : Registry)
    (ts : List Token) : Except Fault Parsed := do
  chain e clause (← clause r ts)

/-- A clause with room for `nesting` clauses within each other: a query in parentheses, an index and
a relation in front of a clause for which they hold, a declaration in front of the query in which it
holds, or a term. -/
def clause (e : Ending) : Nat → Scope → Registry → List Token → Except Fault Parsed
  | 0, _, _, ts => .error (e.faultAt ts .nestedTooDeeply)
  | _ + 1, _, _, [] => .error (e.faultAt [] .unexpectedEnd)
  | nesting + 1, scope, r, t :: rest =>
    if t.kind = .openParen then do
      e.view rest
      let inner ← query e (clause e nesting scope) r rest
      inner.close e
    else if t.isWord then do
      e.view rest
      match rest with
      | relation :: more =>
        if relation.isRelation then do
          e.view more
          let (modifiers, left) ← modifiers e more
          clause e nesting ⟨t.lower, relation.lower, modifiers⟩ r left
        else return term scope r t rest
      | [] => return term scope r t rest
    else if t.isComparator ">" then do
      e.view rest
      let ((key, id), left) ← declaration e rest
      query e (clause e nesting scope) (r.register key id) left
    else .error (e.faultAt (t :: rest) (.unexpected t.value))
where
  term (scope : Scope) (r : Registry) (t : Token) (rest : List Token) : Parsed :=
    ⟨.clause (.resolve r scope.field scope.relation scope.modifiers t.lower), 1, r, rest⟩

def read (choice : ServerChoice) (text : String) : Except Fault Query :=
  if Text.isBlankText text then .error ⟨.emptyQuery, none⟩
  else do
    let s := Scan.ofText text
    s.ending.view s.tokens
    let scope : Scope := ⟨choice.field, choice.relation, []⟩
    let parsed ← query s.ending (clause s.ending maxNesting scope) Registry.seeded s.tokens
    match parsed.rest with
    | [] => return ⟨some text, parsed.node, parsed.registry, choice⟩
    | t :: _ => .error (s.ending.faultAt parsed.rest (.expectedEnd t.value))

end ContextQuery.Cql
