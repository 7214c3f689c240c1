import ContextQuery.Query.Registry
import ContextQuery.Query.ServerChoice

namespace ContextQuery

/-- An annotation such as `/stem`, `/lang=en` or `/distance<3`. The relation of a flag is empty. -/
structure Modifier where
  name : String
  relation : String
  value : String
  deriving DecidableEq

namespace Modifier

def flag (name : String) : Modifier := ⟨name, "", ""⟩

def isFlag (m : Modifier) : Bool := m.relation.isEmpty

end Modifier

structure Clause where
  field : QualifiedName
  relation : QualifiedName
  modifiers : List Modifier
  term : String
  deriving DecidableEq

namespace Clause

def resolve (r : Registry) (field relation : String) (modifiers : List Modifier) (term : String) :
    Clause :=
  ⟨r.split field, r.splitRelation relation, modifiers, term⟩

/-- Is the name the server's, in any case of its letters, with or without its prefix? -/
def isChosen (r : Registry) (q : QualifiedName) (choice : String) : Bool :=
  Text.sameIgnoringCase q.name choice || Text.sameIgnoringCase (r.qualify q) choice

def hasChosenField (r : Registry) (choice : ServerChoice) (c : Clause) : Bool :=
  isChosen r c.field choice.field

def hasChosenRelation (r : Registry) (choice : ServerChoice) (c : Clause) : Bool :=
  isChosen r c.relation choice.relation

end Clause

end ContextQuery
