import ContextQuery.Fq.Mnemonic
import ContextQuery.Json.Writer
import ContextQuery.Query.Tree

namespace ContextQuery.Fq

def clauseNames : List String := ["term", "field", "relation"]

def booleanNames : List String := ["op", "s1", "s2"]

/-- The members that are written, in order; those of an operator in front of its operands. -/
inductive Document
  | clause (members : List (String × String))
  | boolean (members : List (String × String)) (s1 s2 : Document)

/-- The member for a modifier. A flag says `true`. -/
def modifierMember (m : Modifier) : String × String :=
  (m.name, if m.value.isEmpty then "true" else m.value)

def modifierMembers (taken : List String) (ms : List Modifier) : List (String × String) :=
  (ms.filter fun m => !taken.contains m.name).map modifierMember

/-- The members of a clause. Index and relation are left out where they are empty or the server's
choice. -/
def clauseMembers (r : Registry) (choice : ServerChoice) (c : Clause) : List (String × String) :=
  ("term", c.term) ::
    ((if c.field.name.isEmpty || c.hasChosenField r choice then []
      else [("field", r.qualify c.field)]) ++
    (if c.relation.name.isEmpty || c.hasChosenRelation r choice then []
      else [("relation", mnemonic (r.qualifyRelation c.relation))]) ++
    modifierMembers clauseNames c.modifiers)

def Document.ofNode (r : Registry) (choice : ServerChoice) : Node → Document
  | .clause c => .clause (clauseMembers r choice c)
  | .boolean op ms left right =>
    .boolean (("op", op.keyword) :: modifierMembers booleanNames ms) (ofNode r choice left)
      (ofNode r choice right)

/-- What ends a line, and what a line is indented by for each operator around it. -/
structure Layout where
  indent : String
  newline : String
  deriving DecidableEq

namespace Layout

def standard : Layout := ⟨"  ", "\n"⟩

def indentation (l : Layout) (n : Nat) : String := String.join (List.replicate n l.indent)

def writeMember (m : String × String) : String := Json.quote m.1 ++ ": " ++ Json.quote m.2

def writeMembers (ms : List (String × String)) : String := ", ".intercalate (ms.map writeMember)

def operandStart (l : Layout) (n : Nat) (name : String) : String :=
  "," ++ l.newline ++ l.indentation n ++ " " ++ Json.quote name ++ ": "

/-- The last line of an operator, which one blank sets off within another operator if there is any
indentation. -/
def lastLine (l : Layout) (n : Nat) : String :=
  l.newline ++ l.indentation (n - 1) ++ (if n = 0 || l.indent.isEmpty then "" else " ") ++ "\x7d"

def write (l : Layout) (n : Nat) : Document → String
  | .clause members => "\x7b" ++ writeMembers members ++ "\x7d"
  | .boolean members s1 s2 =>
    "\x7b" ++ writeMembers members ++ l.operandStart n "s1" ++ write l (n + 1) s1 ++
      l.operandStart n "s2" ++ write l (n + 1) s2 ++ l.lastLine n

end Layout

def write (l : Layout) (q : Query) : String := l.write 0 (.ofNode q.registry q.choice q.root)

end ContextQuery.Fq
