import ContextQuery.Cql.Position

namespace ContextQuery.Cql

inductive Cause
  | emptyQuery
  | unterminatedLiteral
  | nestedTooDeeply
  | expectedEnd (found : String)
  | missingParenthesis
  | unexpectedEnd
  | unexpected (found : String)
  | unknownOperator
  | invalidModifier
  | invalidModifierRelation
  | expectedWord
  deriving DecidableEq

def Cause.message : Cause → String
  | .emptyQuery => "The query to be parsed cannot be empty"
  | .unterminatedLiteral => "Unterminated string literal"
  | .nestedTooDeeply => "Query is nested too deeply"
  | .expectedEnd found => "EOF expected, found '" ++ found ++ "'"
  | .missingParenthesis => "Missing closing parenthesis"
  | .unexpectedEnd => "Invalid search clause: unexpected end of query"
  | .unexpected found => "Invalid search clause: unexpected '" ++ found ++ "'"
  | .unknownOperator => "Unknown boolean operator"
  | .invalidModifier => "Invalid modifier"
  | .invalidModifierRelation => "Invalid relation within the modifier"
  | .expectedWord => "Expecting string or a quoted expression"

/-- An empty query has no place. -/
structure Fault where
  cause : Cause
  position : Option Position
  deriving DecidableEq

end ContextQuery.Cql
