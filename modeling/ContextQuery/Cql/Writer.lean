import ContextQuery.Query.Tree
import ContextQuery.Text.Blank

namespace ContextQuery.Cql

/-- The text with a backslash in front of each quotation mark that has none, and behind a backslash
at the end that escapes nothing. -/
def escapeFrom (escaped : Bool) : List Char → List Char
  | [] => if escaped then ['\\'] else []
  | c :: rest =>
    (if c = '"' ∧ escaped = false then ['\\', c] else [c]) ++
      escapeFrom (c == '\\' && !escaped) rest

def escape (s : String) : String := String.ofList (escapeFrom false s.toList)

def quote (s : String) : String := "\"" ++ escape s ++ "\""

def isBareChar (c : Char) : Bool :=
  !(Text.isBlank c || c == '(' || c == ')' || c == '/' || c == '<' || c == '>' || c == '=' ||
    c == '"' || c == '\x27')

/-- Does the text read as one word, and not as an operator, without quotes? -/
def isBare (s : String) : Bool :=
  !s.isEmpty && (BooleanOp.ofKeyword? s).isNone && s.toList.all isBareChar

def writeWord (s : String) : String := if isBare s then s else quote s

def isComparatorRun (s : String) : Bool :=
  !s.isEmpty && s.toList.all fun c => c == '<' || c == '>' || c == '='

def writeRelation (s : String) : String := if isComparatorRun s then s else writeWord s

def writeModifier (m : Modifier) : String :=
  "/" ++ writeWord m.name ++ (if m.isFlag then "" else m.relation ++ writeWord m.value)

def writeModifiers (modifiers : List Modifier) : String := String.join (modifiers.map writeModifier)

/-- Is the term enough for the clause to be read back? Modifiers need a relation to hang on. -/
def isImplied (r : Registry) (choice : ServerChoice) (c : Clause) : Bool :=
  c.modifiers.isEmpty && c.hasChosenField r choice && c.hasChosenRelation r choice

def writeClause (r : Registry) (choice : ServerChoice) (c : Clause) : String :=
  (if isImplied r choice c then ""
    else writeWord (r.qualify c.field) ++ " " ++ writeRelation (r.qualifyRelation c.relation) ++
      writeModifiers c.modifiers ++ " ") ++ quote c.term

def parenthesize (isBoolean : Bool) (s : String) : String := if isBoolean then "(" ++ s ++ ")" else s

def writeNode (r : Registry) (choice : ServerChoice) : Node → String
  | .clause c => writeClause r choice c
  | .boolean op modifiers left right =>
    parenthesize left.isBoolean (writeNode r choice left) ++ " " ++ op.keyword ++
      writeModifiers modifiers ++ " " ++ parenthesize right.isBoolean (writeNode r choice right)

def write (q : Query) : String := writeNode q.registry q.choice q.root

end ContextQuery.Cql
