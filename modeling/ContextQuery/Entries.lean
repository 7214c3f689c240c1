namespace ContextQuery.Entries

variable {α : Type}

/-- A key that is there already keeps its place and takes the new value. -/
def insert (key : String) (value : α) : List (String × α) → List (String × α)
  | [] => [(key, value)]
  | (k, v) :: rest => if k = key then (key, value) :: rest else (k, v) :: insert key value rest

def hasKey (entries : List (String × α)) (key : String) : Bool := (entries.lookup key).isSome

theorem lookup_insert_self (key : String) (value : α) (entries : List (String × α)) :
    (insert key value entries).lookup key = some value := by
  induction entries with
  | nil => simp [insert]
  | cons e rest ih =>
    obtain ⟨k, v⟩ := e
    by_cases h : k = key
    · simp [insert, h]
    · have h' : (key == k) = false := by simpa using Ne.symm h
      simp [insert, h, List.lookup_cons, h', ih]

theorem lookup_insert_of_ne {key other : String} (h : other ≠ key) (value : α)
    (entries : List (String × α)) :
    (insert key value entries).lookup other = entries.lookup other := by
  have hb : (other == key) = false := by simpa using h
  induction entries with
  | nil => simp only [insert, List.lookup_cons, List.lookup_nil, hb]
  | cons e rest ih =>
    obtain ⟨k, v⟩ := e
    by_cases hk : k = key
    · subst hk
      simp only [insert, ↓reduceIte, List.lookup_cons, hb]
    · simp only [insert, hk, ↓reduceIte, List.lookup_cons, ih]

theorem lookup_insert (key other : String) (value : α) (entries : List (String × α)) :
    (insert key value entries).lookup other =
      if other = key then some value else entries.lookup other := by
  by_cases h : other = key
  · subst h; simp [lookup_insert_self]
  · simp [h, lookup_insert_of_ne]

end ContextQuery.Entries
