import ContextQuery.Query.Tree
import ContextQuery.Xml.Element

namespace ContextQuery.Xcql

open Xml

def modifier (m : Modifier) : Element :=
  .group "modifier" [.text "name" m.name, .text "relation" m.relation, .text "value" m.value]

def modifiers (ms : List Modifier) : List Element :=
  if ms.isEmpty then [] else [.group "modifiers" (ms.map modifier)]

def prefixes : Option String → List Element
  | none => []
  | some identifier => [.group "prefixes" [.group "prefix" [.text "identifier" identifier]]]

def identifier : Option String → List Element
  | none => []
  | some identifier => [.text "identifier" identifier]

/-- Names stand without their prefixes, and the context set of a name is given by its identifier. -/
def clause (c : Clause) : Element :=
  .group "searchClause" <|
    prefixes c.field.identifier ++
      [.text "index" c.field.name,
        .group "relation" <|
          identifier c.relation.identifier ++ .text "value" c.relation.name ::
            modifiers c.modifiers,
        .text "term" c.term]

def node : Node → Element
  | .clause c => clause c
  | .boolean op ms left right =>
    .group "triple"
      [.group "boolean" (.text "value" op.keyword :: modifiers ms),
        .group "leftOperand" [node left],
        .group "rightOperand" [node right]]

def standardIndent : String := " "

def write (indent : String) (q : Query) : String := (node q.root).render indent

end ContextQuery.Xcql
