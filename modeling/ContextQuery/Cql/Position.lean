namespace ContextQuery.Cql

/-- The line and the column count from one, the column in characters; the offset counts the bytes in
front in UTF-8. -/
structure Position where
  line : Nat
  column : Nat
  offset : Nat
  deriving DecidableEq

namespace Position

def start : Position := ⟨1, 1, 0⟩

def advance (p : Position) (c : Char) : Position :=
  if c = '\n' then ⟨p.line + 1, 1, p.offset + c.utf8Size⟩
  else ⟨p.line, p.column + 1, p.offset + c.utf8Size⟩

def after (p : Position) (cs : List Char) : Position := cs.foldl advance p

theorem after_append (p : Position) (cs ds : List Char) :
    p.after (cs ++ ds) = (p.after cs).after ds := List.foldl_append

end Position

end ContextQuery.Cql
