import ContextQuery.Numeral.Shortest

namespace ContextQuery

/-- An integer that fits in 64 bits, or a finite number in binary64. -/
inductive Number
  | integer (n : Int)
  | binary (negative : Bool) (magnitude : Binary64)
  deriving DecidableEq

def Number.text : Number → String
  | .integer n => toString n
  | .binary negative magnitude => (if negative then "-" else "") ++ magnitude.text

inductive Json
  | null
  | bool (b : Bool)
  | number (n : Number)
  | string (s : String)
  | array (items : List Json)
  | object (members : List (String × Json))

namespace Json

def ofNat (n : Nat) : Json := .number (.integer n)

def ofOption {α : Type} (f : α → Json) : Option α → Json
  | some a => f a
  | none => .null

def string? : Json → Option String
  | .string s => some s
  | _ => none

def boolText (b : Bool) : String := if b then "true" else "false"

def member? (name : String) : Json → Option Json
  | .object members => members.lookup name
  | _ => none

end Json

end ContextQuery
