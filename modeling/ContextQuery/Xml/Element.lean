namespace ContextQuery.Xml

/-- An element holds either text or other elements. Each tag is written on a line of its own, but
for those around a text. -/
inductive Element
  | text (name content : String)
  | group (name : String) (children : List Element)

structure Line where
  depth : Nat
  text : String
  deriving DecidableEq

def escapeChar (c : Char) : List Char :=
  if c = '&' then ['&', 'a', 'm', 'p', ';']
  else if c = '<' then ['&', 'l', 't', ';']
  else if c = '>' then ['&', 'g', 't', ';']
  else [c]

def escape (s : String) : String := String.ofList (s.toList.flatMap escapeChar)

def openTag (name : String) : String := "<" ++ name ++ ">"

def closeTag (name : String) : String := "</" ++ name ++ ">"

namespace Element

mutual

def lines (depth : Nat) : Element → List Line
  | .text name content => [⟨depth, openTag name ++ escape content ++ closeTag name⟩]
  | .group name children =>
    ⟨depth, openTag name⟩ :: linesOfAll (depth + 1) children ++ [⟨depth, closeTag name⟩]

def linesOfAll (depth : Nat) : List Element → List Line
  | [] => []
  | e :: rest => lines depth e ++ linesOfAll depth rest

end

end Element

def Line.render (unit : String) (l : Line) : String :=
  String.join (List.replicate l.depth unit) ++ l.text ++ "\n"

def Element.render (unit : String) (e : Element) : String :=
  String.join ((e.lines 0).map (Line.render unit))

end ContextQuery.Xml
