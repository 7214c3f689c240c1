import ContextQuery.Cql.Fault
import ContextQuery.Fq.Reader
import ContextQuery.Json.Writer

namespace ContextQuery

def Cql.Position.toJson (p : Cql.Position) : Json :=
  .object [("line", .ofNat p.line), ("column", .ofNat p.column), ("offset", .ofNat p.offset)]

inductive Diagnostic
  | syntaxError (message : String) (position : Option Cql.Position)
  | formatError (message : String)
  | unknownNodeType (node : String)

namespace Diagnostic

def kind : Diagnostic → String
  | .syntaxError .. => "syntax"
  | .formatError _ => "format"
  | .unknownNodeType _ => "unknown_node_type"

def position? : Diagnostic → Option Cql.Position
  | .syntaxError _ position => position
  | _ => none

def placeText : Option Cql.Position → String
  | none => ""
  | some p => " (line " ++ toString p.line ++ ", column " ++ toString p.column ++ ")"

def display : Diagnostic → String
  | .syntaxError message position => "syntax error: " ++ message ++ placeText position
  | .formatError message => "format error: " ++ message
  | .unknownNodeType node => "unknown node type: " ++ node

def toJson (d : Diagnostic) : Json :=
  match d with
  | .syntaxError message position =>
    .object [("type", .string d.kind), ("message", .string message),
      ("position", Json.ofOption Cql.Position.toJson position)]
  | .formatError message => .object [("type", .string d.kind), ("message", .string message)]
  | .unknownNodeType node => .object [("type", .string d.kind), ("node", .string node)]

end Diagnostic

def Cql.Fault.diagnostic (f : Cql.Fault) : Diagnostic := .syntaxError f.cause.message f.position

def Fq.Fault.diagnostic : Fq.Fault → Diagnostic
  | .emptyQuery => .formatError "The query to be parsed cannot be empty"
  | .invalidJson => .formatError "invalid json"
  | .nestedTooDeeply => .formatError "FQ query is nested too deeply"
  | .unknownOperator keyword => .formatError ("unknown boolean operator '" ++ keyword ++ "'")
  | .noText name found =>
    .formatError ("expected a string for '" ++ name ++ "', found " ++ found.compact)
  | .missing name => .formatError ("missing '" ++ name ++ "'")
  | .unnamedModifier => .formatError "modifier name cannot be empty"
  | .unknownNode found => .unknownNodeType found.compact

end ContextQuery
