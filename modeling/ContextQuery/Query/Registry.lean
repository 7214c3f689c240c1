import ContextQuery.Entries
import ContextQuery.Text.Base64
import ContextQuery.Text.LowerCase

namespace ContextQuery

/-- A name, and the identifier of the context set it belongs to, if any. -/
structure QualifiedName where
  name : String
  identifier : Option String
  deriving DecidableEq

/-- `identifiers` is keyed by prefix, `prefixes` by the Base64 form of the identifier. -/
structure Registry where
  identifiers : List (String × String)
  prefixes : List (String × String)
  deriving DecidableEq

/-- The prefix of relations that are written without one; it is not written back either. -/
def standardPrefix : String := "cql"

/-- The prefix under which a declaration without one is registered. -/
def unnamedPrefix : String := "default"

namespace Registry

def empty : Registry := ⟨[], []⟩

def reverseKey (identifier : String) : String := Text.base64 identifier

def resolve (r : Registry) (key : String) : Option String := r.identifiers.lookup key

def prefixFor (r : Registry) (identifier : String) : Option String :=
  r.prefixes.lookup (reverseKey identifier)

def register (r : Registry) (key identifier : String) : Registry :=
  ⟨Entries.insert key identifier r.identifiers,
    Entries.insert (reverseKey identifier) key r.prefixes⟩

def registerAll (r : Registry) (pairs : List (String × String)) : Registry :=
  pairs.foldl (fun r p => r.register p.1 p.2) r

theorem registerAll_append (r : Registry) (pairs more : List (String × String)) :
    (r.registerAll pairs).registerAll more = r.registerAll (pairs ++ more) :=
  List.foldl_append.symm

def size (r : Registry) : Nat := r.identifiers.length

def isEmpty (r : Registry) : Bool := r.identifiers.isEmpty

def contextSets : List (String × String) :=
  [("cql", "info:srw/cql-context-set/1/cql-v1.2"),
    ("dc", "info:srw/cql-context-set/1/dc-v1.1"),
    ("bath", "http://zing.z3950.org/cql/bath/2.0/"),
    ("rec", "info:srw/cql-context-set/2/rec-1.1"),
    ("net", "info:srw/cql-context-set/2/net-1.0"),
    ("music", "info:srw/cql-context-set/3/music-1.0"),
    ("zthes", "http://zthes.z3950.org/cql/1.0/"),
    ("ccg", "http://srw.cheshire3.org/contextSets/ccg/1.1/"),
    ("zeerex", "info:srw/cql-context-set/2/zeerex-1.1"),
    ("marc", "info:srw/cql-context-set/1/marc-1.1"),
    ("rel", "info:srw/cql-context-set/2/relevance-1.0"),
    ("sort", "info:srw/cql-context-set/1/sort-v1.0"),
    ("gils", "info:srw/cql-context-set/14/gils-v1.0"),
    ("norzig", "info:srw/cql-context-set/15/norzig-1.0"),
    ("prism", "info:srw/cql-context-set/11/prism-v2.1"),
    ("bib", "info:srw/cql-context-set/1/bib-v1"),
    ("jamas", "info:srw/cql-context-set/16/jamas-v1.0")]

/-- Older identifiers that still lead back to a prefix. -/
def olderIdentifiers : List (String × String) :=
  [("cql", "info:srw/cql-context-set/1/cql-v1.1"),
    ("prism", "info:srw/cql-context-set/11/prism-v2.0")]

def seeded : Registry :=
  registerAll ⟨[], olderIdentifiers.map fun p => (reverseKey p.2, p.1)⟩ contextSets

def sameTable (s t : List (String × String)) : Bool :=
  s.length == t.length && s.all fun e => t.lookup e.1 == some e.2

def same (r s : Registry) : Bool :=
  sameTable r.identifiers s.identifiers && sameTable r.prefixes s.prefixes

def splitAtStop (s : String) : Option (String × String) :=
  match s.toList.dropWhile (· ≠ '.') with
  | [] => none
  | _ :: rest => some (String.ofList (s.toList.takeWhile (· ≠ '.')), String.ofList rest)

/-- A name as written, with its prefix resolved in whatever case it is written. A name without a
known prefix stays whole. -/
def split (r : Registry) (name : String) : QualifiedName :=
  match splitAtStop name with
  | none => ⟨name, none⟩
  | some (key, rest) =>
    match r.resolve (Text.lowerCase key) with
    | some identifier => ⟨rest, some identifier⟩
    | none => ⟨name, none⟩

/-- As for other names, except that a relation without a full stop belongs to the standard context
set. -/
def splitRelation (r : Registry) (relation : String) : QualifiedName :=
  match splitAtStop relation with
  | none => ⟨relation, r.resolve standardPrefix⟩
  | some _ => r.split relation

def prefixOf (r : Registry) (q : QualifiedName) : Option String := q.identifier.bind r.prefixFor

def joinPrefix (key name : String) : String := key ++ "." ++ name

def qualify (r : Registry) (q : QualifiedName) : String :=
  match r.prefixOf q with
  | some key => joinPrefix key q.name
  | none => q.name

/-- The name with its prefix in front, but for the standard one. -/
def qualifyRelation (r : Registry) (q : QualifiedName) : String :=
  match r.prefixOf q with
  | some key => if key = standardPrefix then q.name else joinPrefix key q.name
  | none => q.name

end Registry

end ContextQuery
