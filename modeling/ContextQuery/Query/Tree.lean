import ContextQuery.Query.Clause

namespace ContextQuery

inductive BooleanOp
  | and
  | or
  | not
  | prox
  deriving DecidableEq

namespace BooleanOp

def all : List BooleanOp := [.and, .or, .not, .prox]

def keyword : BooleanOp → String
  | .and => "and"
  | .or => "or"
  | .not => "not"
  | .prox => "prox"

def ofExactKeyword? (s : String) : Option BooleanOp := all.find? fun op => op.keyword == s

def ofKeyword? (s : String) : Option BooleanOp := ofExactKeyword? (Text.lowerCase s)

theorem ofKeyword?_keyword (op : BooleanOp) : ofKeyword? op.keyword = some op := by
  cases op <;> decide

end BooleanOp

inductive Node
  | clause (c : Clause)
  | boolean (op : BooleanOp) (modifiers : List Modifier) (left right : Node)
  deriving DecidableEq

namespace Node

def isBoolean : Node → Bool
  | .clause _ => false
  | .boolean .. => true

def count : Node → Nat
  | .clause _ => 1
  | .boolean _ _ left right => 1 + left.count + right.count

/-- The number of nodes on the longest way down. -/
def height : Node → Nat
  | .clause _ => 1
  | .boolean _ _ left right => 1 + max left.height right.height

def term? : Node → Option String
  | .clause c => some c.term
  | .boolean .. => none

def op? : Node → Option BooleanOp
  | .clause _ => none
  | .boolean op .. => some op

end Node

/-- A query tree with the context sets and the server's choice it was read with. `source` is the
query text, if it was read from such. -/
structure Query where
  source : Option String
  root : Node
  registry : Registry
  choice : ServerChoice

end ContextQuery
