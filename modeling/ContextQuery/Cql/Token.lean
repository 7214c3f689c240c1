import ContextQuery.Cql.Position
import ContextQuery.Query.Tree

namespace ContextQuery.Cql

inductive TokenKind
  | openParen
  | closeParen
  | slash
  | comparator
  | quoted
  | bareword
  | endOfText
  deriving DecidableEq

/-- `value` is the text of the token, for a quoted one without the quotes around it; `start` is the
place of its first character and `stop` the offset behind its last. -/
structure Token where
  kind : TokenKind
  value : String
  start : Position
  stop : Nat
  deriving DecidableEq

namespace Token

def endOfText (p : Position) : Token := ⟨.endOfText, "", p, p.offset⟩

def lower (t : Token) : String := Text.lowerCase t.value

def isWord (t : Token) : Bool := t.kind == .bareword || t.kind == .quoted

/-- The boolean operator that the token names; a quoted word names none. -/
def operator? (t : Token) : Option BooleanOp :=
  if t.kind = .bareword then BooleanOp.ofKeyword? t.value else none

def isKeyword (t : Token) : Bool := t.operator?.isSome

def isComparator (t : Token) (value : String) : Bool := t.kind == .comparator && t.value == value

def touches (t next : Token) : Bool := t.stop == next.start.offset

end Token

end ContextQuery.Cql
