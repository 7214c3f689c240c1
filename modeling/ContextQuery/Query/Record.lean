import ContextQuery.Json.Reader
import ContextQuery.Json.Record
import ContextQuery.Query.Limits
import ContextQuery.Query.Tree

namespace ContextQuery

namespace Modifier

def partNames : List String := ["name", "relation", "value"]

def toJson (m : Modifier) : Json :=
  .object [("name", .string m.name), ("relation", .string m.relation), ("value", .string m.value)]

def ofJson? (j : Json) : Option Modifier :=
  match j.parts? partNames with
  | some [some (.string name), some (.string relation), some (.string value)] =>
    some ⟨name, relation, value⟩
  | _ => none

def listOfJson? : Json → Option (List Modifier)
  | .array items => items.mapM ofJson?
  | _ => none

end Modifier

namespace Clause

def partNames : List String :=
  ["field", "field_namespace", "relation", "relation_namespace", "modifiers", "term"]

def members (c : Clause) : List (String × Json) :=
  [("field", .string c.field.name),
    ("field_namespace", Json.ofOption .string c.field.identifier),
    ("relation", .string c.relation.name),
    ("relation_namespace", Json.ofOption .string c.relation.identifier),
    ("modifiers", .array (c.modifiers.map Modifier.toJson)),
    ("term", .string c.term)]

def ofParts? : List (Option Json) → Option Clause
  | [some (.string field), fieldIdentifier, some (.string relation), relationIdentifier,
      some modifiers, some (.string term)] => do
    let fieldIdentifier ← Json.optionalString? fieldIdentifier
    let relationIdentifier ← Json.optionalString? relationIdentifier
    let modifiers ← Modifier.listOfJson? modifiers
    return ⟨⟨field, fieldIdentifier⟩, ⟨relation, relationIdentifier⟩, modifiers, term⟩
  | _ => none

end Clause

/-- The operator that a keyword in lower case names. A keyword may also be the one member of an
object, with nothing to it. -/
def BooleanOp.ofJson? : Json → Option BooleanOp
  | .string s => ofExactKeyword? s
  | .object [(s, .null)] => ofExactKeyword? s
  | .object [(s, .object [])] => ofExactKeyword? s
  | _ => none

namespace Node

inductive Kind
  | clause
  | boolean

namespace Kind

def all : List Kind := [.clause, .boolean]

def label : Kind → String
  | .clause => "search_clause"
  | .boolean => "boolean"

/-- The kind with that label. The kind of an operand may also be given by its number. -/
def ofJson? (operand : Bool) : Json → Option Kind
  | .string s => all.find? fun kind => kind.label == s
  | .number (.integer n) => if operand ∧ 0 ≤ n then all[n.toNat]? else none
  | _ => none

end Kind

def kindName : String := "type"

def booleanPartNames : List String := ["op", "modifiers", "left", "right"]

def toJson : Node → Json
  | .clause c => .object ((kindName, .string Kind.clause.label) :: c.members)
  | .boolean op modifiers left right =>
    .object [(kindName, .string Kind.boolean.label), ("op", .string op.keyword),
      ("modifiers", .array (modifiers.map Modifier.toJson)),
      ("left", left.toJson), ("right", right.toJson)]

/-- The tree that a record stands for, as an operand or as a whole. -/
def ofRecord? (operand : Bool) (j : Json) : Option Node :=
  match (j.firstPart? kindName).bind (Kind.ofJson? operand) with
  | none => none
  | some .clause =>
    match j.parts? (kindName :: Clause.partNames) with
    | some (_ :: parts) => (Clause.ofParts? parts).map .clause
    | _ => none
  | some .boolean =>
    match h : j.parts? (kindName :: booleanPartNames) with
    | some [_, some op, some modifiers, some left, some right] => do
      have : sizeOf left < sizeOf j := Json.sizeOf_lt_of_parts? h (by simp)
      have : sizeOf right < sizeOf j := Json.sizeOf_lt_of_parts? h (by simp)
      let op ← BooleanOp.ofJson? op
      let modifiers ← Modifier.listOfJson? modifiers
      let left ← ofRecord? true left
      let right ← ofRecord? true right
      return .boolean op modifiers left right
    | _ => none
termination_by sizeOf j

def read? (text : String) : Option Node :=
  (Json.read? (some maxJsonNesting) .kept text).bind (ofRecord? false)

end Node

end ContextQuery
