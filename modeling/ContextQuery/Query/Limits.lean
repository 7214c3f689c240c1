namespace ContextQuery

/-- How many parentheses, index scopes and declarations may enclose a clause in query text, the
clause itself included. -/
def maxNesting : Nat := 128

def maxHeight : Nat := 1024

def maxJsonNesting : Nat := 127

end ContextQuery
