import ContextQuery.Entries
import ContextQuery.Fq.Writer
import ContextQuery.Json.Reader
import ContextQuery.Query.Limits
import ContextQuery.Text.Blank

namespace ContextQuery.Fq

inductive Fault
  | emptyQuery
  | invalidJson
  | nestedTooDeeply
  | unknownOperator (keyword : String)
  | noText (name : String) (found : Json)
  | missing (name : String)
  | unnamedModifier
  | unknownNode (found : Json)

/-- The text of a member that is a string, a number or a truth value. -/
def textOf (name : String) : Json → Except Fault String
  | .string s => .ok s
  | .number n => .ok n.text
  | .bool b => .ok (Json.boolText b)
  | j => .error (.noText name j)

def memberText (members : List (String × Json)) (name : String) : Except Fault String :=
  match members.lookup name with
  | some j => textOf name j
  | none => .error (.missing name)

/-- The modifier that a member is: equality with its text. -/
def readModifier (member : String × Json) : Except Fault Modifier := do
  if member.1.isEmpty then .error .unnamedModifier
  else return ⟨member.1, "=", ← textOf member.1 member.2⟩

def readModifiers (taken : List String) (members : List (String × Json)) :
    Except Fault (List Modifier) :=
  (members.filter fun m => !taken.contains m.1).mapM readModifier

def memberTextOr (members : List (String × Json)) (name default : String) : Except Fault String :=
  if Entries.hasKey members name then memberText members name else .ok default

def readClause (r : Registry) (choice : ServerChoice) (members : List (String × Json)) :
    Except Fault Clause := do
  let term ← memberText members "term"
  let field ← memberTextOr members "field" choice.field
  let relation ← memberTextOr members "relation" choice.relation
  let relation := if Entries.hasKey members "relation" then ofMnemonic relation else relation
  return .resolve r field relation (← readModifiers clauseNames members) term

def readOperator (members : List (String × Json)) : Except Fault BooleanOp := do
  let keyword ← memberText members "op"
  match BooleanOp.ofKeyword? keyword with
  | some op => return op
  | none => .error (.unknownOperator keyword)

/-- The tree that a value stands for, of at most the given height. An object with `op`, `s1` and
`s2` is an operator, another one with `term` a clause. -/
def readNode (r : Registry) (choice : ServerChoice) : Nat → Json → Except Fault Node
  | 0, _ => .error .nestedTooDeeply
  | height + 1, j =>
    match j with
    | .object members =>
      match members.lookup "op", members.lookup "s1", members.lookup "s2" with
      | some _, some s1, some s2 => do
        let op ← readOperator members
        let left ← readNode r choice height s1
        let right ← readNode r choice height s2
        return .boolean op (← readModifiers booleanNames members) left right
      | _, _, _ =>
        if Entries.hasKey members "term" then return .clause (← readClause r choice members)
        else .error (.unknownNode j)
    | _ => .error (.unknownNode j)

def ofJson (choice : ServerChoice) (j : Json) : Except Fault Query := do
  let root ← readNode Registry.seeded choice maxHeight j
  return ⟨none, root, Registry.seeded, choice⟩

def read (choice : ServerChoice) (text : String) : Except Fault Query :=
  if Text.isBlankText text then .error .emptyQuery
  else match Json.read? (some maxJsonNesting) .replaced text with
    | some j => ofJson choice j
    | none => .error .invalidJson

end ContextQuery.Fq
