namespace ContextQuery.Fq

def mnemonics : List (String × String) :=
  [("<", "lt"), (">", "gt"), ("=", "eq"), ("<>", "ne"), (">=", "ge"), ("<=", "le")]

/-- The word for a comparator; another relation is its own. -/
def mnemonic (relation : String) : String :=
  match mnemonics.find? fun p => p.1 == relation with
  | some p => p.2
  | none => relation

def ofMnemonic (word : String) : String :=
  match mnemonics.find? fun p => p.2 == word with
  | some p => p.1
  | none => word

end ContextQuery.Fq
