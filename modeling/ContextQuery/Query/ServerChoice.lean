namespace ContextQuery

/-- The index and the relation of a clause that names none. -/
structure ServerChoice where
  field : String
  relation : String
  deriving DecidableEq

namespace ServerChoice

def standard : ServerChoice := ⟨"cql.serverChoice", "scr"⟩

/-- The choice that settings make; a setting that is missing leaves the standard one in place, and
an empty one is a setting. -/
def ofSettings (field relation : Option String) : ServerChoice :=
  ⟨field.getD standard.field, relation.getD standard.relation⟩

end ServerChoice

end ContextQuery
