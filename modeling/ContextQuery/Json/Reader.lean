import ContextQuery.Entries
import ContextQuery.Json.Lexeme

namespace ContextQuery.Json

/-- What becomes of a member whose name its object has already: it replaces the other one in its
place, or both are kept. -/
inductive Repeats
  | replaced
  | kept
  deriving DecidableEq

def Repeats.add (repeats : Repeats) (name : String) (v : Json) (members : List (String × Json)) :
    List (String × Json) :=
  match repeats with
  | .replaced => Entries.insert name v members
  | .kept => members ++ [(name, v)]

inductive Place
  | value
  | firstItem
  | firstName
  | name (members : List (String × Json))
  | colon (members : List (String × Json)) (name : String)
  | after (v : Json)

/-- An array or object that is still open: its items so far, nearest first, or its members so far
and the name of the one being read. -/
inductive Level
  | array (items : List Json)
  | object (members : List (String × Json)) (name : String)

def enter? (limit : Option Nat) (levels : List Level) (place : Place) : Option Place :=
  match limit with
  | some n => if levels.length < n then some place else none
  | none => some place

def begin? (limit : Option Nat) (levels : List Level) : Lexeme → Option (Place × List Level)
  | .scalar v => some (.after v, levels)
  | .string s => some (.after (.string s), levels)
  | .openBracket => (enter? limit levels .firstItem).map fun p => (p, .array [] :: levels)
  | .openBrace => (enter? limit levels .firstName).map fun p => (p, levels)
  | _ => none

def close? (repeats : Repeats) (v : Json) : List Level → Lexeme → Option (Place × List Level)
  | .array items :: levels, .comma => some (.value, .array (v :: items) :: levels)
  | .array items :: levels, .closeBracket => some (.after (.array (v :: items).reverse), levels)
  | .object members name :: levels, .comma => some (.name (repeats.add name v members), levels)
  | .object members name :: levels, .closeBrace =>
    some (.after (.object (repeats.add name v members)), levels)
  | _, _ => none

def step? (limit : Option Nat) (repeats : Repeats) :
    Place → List Level → Lexeme → Option (Place × List Level)
  | .value, levels, l => begin? limit levels l
  | .firstItem, .array [] :: levels, .closeBracket => some (.after (.array []), levels)
  | .firstItem, levels, l => begin? limit levels l
  | .firstName, levels, .closeBrace => some (.after (.object []), levels)
  | .firstName, levels, .string s => some (.colon [] s, levels)
  | .name members, levels, .string s => some (.colon members s, levels)
  | .colon members name, levels, .colon => some (.value, .object members name :: levels)
  | .after v, levels, l => close? repeats v levels l
  | _, _, _ => none

def assemble? (limit : Option Nat) (repeats : Repeats) :
    Place → List Level → List Lexeme → Option Json
  | .after v, [], [] => some v
  | _, _, [] => none
  | place, levels, l :: rest => do
    let (place, levels) ← step? limit repeats place levels l
    assemble? limit repeats place levels rest

def read? (limit : Option Nat) (repeats : Repeats) (s : String) : Option Json := do
  let lexemes ← Lexeme.scan? s
  assemble? limit repeats .value [] lexemes

end ContextQuery.Json
