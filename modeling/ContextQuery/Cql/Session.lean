import ContextQuery.Cql.Reader

namespace ContextQuery.Cql

inductive Event
  | asked (answer : Except Fault Token)
  | entered
  | left

structure Moment where
  event : Event
  nesting : Nat

/-- The state of a single reading: what is left of the text, the token in view, the context sets
registered so far, the count of the clauses under way, and what has happened up to now. The count is
taken back only where a clause has been read to its end. -/
structure Session where
  cursor : Cursor
  inView : Token
  registry : Registry
  nesting : Nat
  log : List Moment

/-- A step of a session, which may fail or never end. What a failed one did to the session stays. -/
abbrev Reading := ExceptT Fault (StateT Session Option)

namespace Session

def mark (event : Event) : Reading Unit :=
  modify fun s => { s with log := s.log ++ [⟨event, s.nesting⟩] }

def count (f : Nat → Nat) : Reading Unit := modify fun s => { s with nesting := f s.nesting }

def current : Reading Token := return (← get).inView

def advance : Reading Token := do
  let s ← get
  let (answer, cursor) := s.cursor.next
  set { s with cursor }
  mark (.asked answer)
  let next ← MonadExcept.ofExcept answer
  modify ({ · with inView := next })
  return s.inView

def refuse {α : Type} (cause : Cause) : Reading α := do
  throw ⟨cause, some (← current).start⟩

def expect (cause : Cause) (p : Token → Bool) : Reading Token := do
  if p (← current) then advance
  else refuse cause

def modifier : Reading Modifier := do
  let _ ← advance
  let name ← expect .invalidModifier fun t => t.isWord && !t.value.isEmpty
  if (← current).kind = .comparator then do
    let comparator ← advance
    let value ← expect .invalidModifierRelation Token.isWord
    return ⟨name.lower, comparator.value, value.lower⟩
  else return .flag name.lower

end Session

open Session

def Token.moreModifiers (inView : Token) (read : List Modifier) : Reading (List Modifier) := do
  if inView.kind = .slash then do
    let m ← Session.modifier
    let next ← current
    next |>.moreModifiers (read ++ [m])
  else return read
partial_fixpoint

/-- Glues to an identifier that so far ends with `last` whatever continues it without a gap. -/
def Token.glue (last : Token) (comparators : Bool) (read : String) : Reading String := do
  let next ← current
  if next.continues comparators && last.touches next then do
    let taken ← advance
    taken |>.glue comparators (read ++ taken.lower)
  else return read
partial_fixpoint

namespace Session

def modifiers : Reading (List Modifier) := do
  let next ← current
  next.moreModifiers []

def identifier (comparators : Bool) (first : Token) : Reading String :=
  if first.kind = .quoted then return first.lower
  else first.glue comparators first.lower

def register (key id : String) : Reading Unit :=
  modify fun s => { s with registry := s.registry.register key id }

def registered : Reading Registry := return (← get).registry

def declaration : Reading Unit := do
  let first ← expect .expectedWord Token.isWord
  if (← current).isComparator "=" then do
    let _ ← advance
    let start ← expect .expectedWord Token.isWord
    let id ← identifier true start
    register first.lower id
  else do
    let id ← identifier false first
    register unnamedPrefix id

end Session

namespace Scope

def term (scope : Scope) (t : Token) : Reading (Node × Nat) := do
  let r ← registered
  return (.clause (.resolve r scope.field scope.relation scope.modifiers t.lower), 1)

mutual

def query (scope : Scope) : Reading (Node × Nat) := do
  let first ← scope |>.clause
  scope |>.chain first
partial_fixpoint

def chain (scope : Scope) (left : Node × Nat) : Reading (Node × Nat) := do
  if (← current).isKeyword then do
    let keyword ← advance
    let op ← MonadExcept.ofExcept (operator keyword)
    let modifiers ← Session.modifiers
    let right ← scope |>.clause
    let height := 1 + max left.2 right.2
    if maxHeight < height then throw ⟨.nestedTooDeeply, some keyword.start⟩
    else scope |>.chain (.boolean op modifiers left.1 right.1, height)
  else return left
partial_fixpoint

/-- A clause, counted from its beginning until it has been read. -/
def clause (scope : Scope) : Reading (Node × Nat) := do
  count (· + 1)
  mark .entered
  if maxNesting < (← get).nesting then refuse .nestedTooDeeply
  else do
    let read ← scope |>.body
    count (· - 1)
    mark .left
    return read
partial_fixpoint

def body (scope : Scope) : Reading (Node × Nat) := do
  let first ← current
  if first.kind = .openParen then do
    let _ ← advance
    let read ← scope |>.query
    let _ ← Session.expect .missingParenthesis (·.kind == .closeParen)
    return read
  else if first.isWord then do
    let first ← advance
    if (← current).isRelation then do
      let relation ← advance
      let modifiers ← Session.modifiers
      let inner : Scope := ⟨first.lower, relation.lower, modifiers⟩
      inner |>.clause
    else scope.term first
  else if first.isComparator ">" then do
    let _ ← advance
    Session.declaration
    scope |>.query
  else if first.kind = .endOfText then refuse .unexpectedEnd
  else refuse (.unexpected first.value)
partial_fixpoint

end

end Scope

namespace Session

def whole (choice : ServerChoice) (text : String) : Reading Query := do
  let scope : Scope := ⟨choice.field, choice.relation, []⟩
  let (root, _) ← scope.query
  let last ← current
  if last.kind = .endOfText then return ⟨some text, root, ← registered, choice⟩
  else refuse (.expectedEnd last.value)

/-- Reads a text, and tells what has happened on the way. -/
def read (choice : ServerChoice) (text : String) : Option (Except Fault Query × List Moment) :=
  if Text.isBlankText text then some (.error ⟨.emptyQuery, none⟩, [])
  else
    let (answer, cursor) := (Cursor.ofText text).next
    let log := [⟨.asked answer, 0⟩]
    match answer with
    | .error fault => some (.error fault, log)
    | .ok first =>
      (whole choice text ⟨cursor, first, .seeded, 0, log⟩).map fun (result, s) => (result, s.log)

end Session

end ContextQuery.Cql
