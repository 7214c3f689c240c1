import ContextQuery.Cql.Reader
import ContextQuery.Proofs.Text.LowerCase

namespace ContextQuery.Cql

theorem Token.isWord_iff {t : Token} : t.isWord = true ↔ t.kind = .bareword ∨ t.kind = .quoted := by
  simp [isWord]

theorem Token.isComparator_iff {t : Token} {s : String} :
    t.isComparator s = true ↔ t.kind = .comparator ∧ t.value = s := by
  simp [isComparator]

/-- A keyword is no relation. -/
theorem Token.isRelation_of_operator? {t : Token} {op : BooleanOp} (h : t.operator? = some op) :
    t.isRelation = false := by
  have hk : t.kind = .bareword := by
    unfold operator? at h
    split at h
    · assumption
    · cases h
  simp [isRelation, isKeyword, h, hk]

def Scope.ofChoice (choice : ServerChoice) : Scope := ⟨choice.field, choice.relation, []⟩

def finish (e : Ending) (choice : ServerChoice) (text : String) (parsed : Parsed) :
    Except Fault Query :=
  match parsed.rest with
  | [] => .ok ⟨some text, parsed.node, parsed.registry, choice⟩
  | t :: _ => .error (e.faultAt parsed.rest (.expectedEnd t.value))

theorem read_eq {choice : ServerChoice} {text : String} (h : Text.isBlankText text = false) :
    read choice text = ((Scan.ofText text).ending.view (Scan.ofText text).tokens).bind fun _ =>
      (query (Scan.ofText text).ending
        (clause (Scan.ofText text).ending maxNesting (.ofChoice choice)) .seeded
        (Scan.ofText text).tokens).bind (finish (Scan.ofText text).ending choice text) := by
  rw [read, h]
  rfl

@[simp] theorem view_complete {p : Position} (ts : List Token) :
    (Ending.complete p).view ts = .ok () := by
  cases ts <;> rfl

variable {e : Ending}

@[simp] theorem view_cons (t : Token) (ts : List Token) : e.view (t :: ts) = .ok () := by
  cases e <;> rfl

/-- What comes into view behind some tokens leaves them in view. -/
theorem view_of_suffix {ts rest : List Token} (h : rest <:+ ts) (hv : e.view rest = .ok ()) :
    e.view ts = .ok () := by
  cases ts with
  | nil => rwa [List.suffix_nil.1 h] at hv
  | cons t ts => exact view_cons t ts

theorem expect_cons {cause : Cause} {q : Token → Bool} {t : Token} {rest : List Token}
    (h : q t = true) (hv : e.view rest = .ok ()) :
    expect e cause q (t :: rest) = .ok (t, rest) := by
  simp only [expect, h, ↓reduceIte, hv]
  rfl

theorem namedModifier_flag (name : Token) {ts : List Token}
    (h : ∀ t ∈ ts.head?, t.kind ≠ .comparator) :
    namedModifier e name ts = .ok (.flag name.lower, ts) := by
  cases ts with
  | nil => rfl
  | cons t ts => exact if_neg (h t rfl)

theorem namedModifier_comparator (name : Token) {comparator value : Token} {rest : List Token}
    (hc : comparator.kind = .comparator) (hw : value.isWord = true) (hv : e.view rest = .ok ()) :
    namedModifier e name (comparator :: value :: rest) =
      .ok (⟨name.lower, comparator.value, value.lower⟩, rest) := by
  simp only [namedModifier, hc, ↓reduceIte, view_cons, word, expect_cons hw hv]
  rfl

theorem modifier_eq {name : Token} {rest : List Token} (hw : name.isWord = true)
    (hne : name.value ≠ "") (hv : e.view rest = .ok ()) :
    modifier e (name :: rest) = namedModifier e name rest := by
  have hq : (name.isWord && !name.value.isEmpty) = true := by simp [hw, hne]
  simp only [modifier, view_cons, expect_cons (q := fun t => t.isWord && !t.value.isEmpty) hq hv]
  rfl

theorem modifiers_stop {ts : List Token} (h : ∀ t ∈ ts.head?, t.kind ≠ .slash) :
    modifiers e ts = .ok ([], ts) := by
  cases ts with
  | nil => rw [modifiers]
  | cons t ts => rw [modifiers, if_neg (h t rfl)]

theorem modifiers_slash {slash : Token} {ts rest : List Token} {m : Modifier}
    (hs : slash.kind = .slash) (hm : modifier e ts = .ok (m, rest)) :
    modifiers e (slash :: ts) = (modifiers e rest).map fun (more, left) => (m :: more, left) := by
  rw [modifiers, if_pos hs]
  split
  · next h => rw [hm] at h; cases h
  · next h => rw [hm] at h; cases h; rfl

theorem declaration_named {key sign start : Token} {left rest : List Token} {id : String}
    (hk : key.isWord = true) (he : sign.isComparator "=" = true) (hs : start.isWord = true)
    (hv : e.view left = .ok ()) (hid : identifier e true start left = .ok (id, rest)) :
    declaration e (key :: sign :: start :: left) = .ok ((key.lower, id), rest) := by
  rw [declaration, word, expect_cons hk (view_cons _ _)]
  change (if sign.isComparator "=" = true then _ else _) = _
  rw [if_pos he, view_cons, word, expect_cons hs hv]
  change (identifier _ _ _ _).bind _ = _
  rw [hid]
  rfl

theorem declaration_unnamed {first : Token} {left rest : List Token} {id : String}
    (hf : first.isWord = true) (he : ∀ t ∈ left.head?, t.isComparator "=" = false)
    (hv : e.view left = .ok ()) (hid : identifier e false first left = .ok (id, rest)) :
    declaration e (first :: left) = .ok ((unnamedPrefix, id), rest) := by
  rw [declaration, word, expect_cons hf hv]
  cases left with
  | nil =>
    have hjoin : String.join [first.lower] = first.lower := by simp [String.join]
    have hlower : (first.lower, ([] : List Token)) = (id, rest) := by
      rcases Token.isWord_iff.1 hf with h | h <;> rw [identifier, h] at hid
      · change (e.view []).bind _ = _ at hid
        rw [hv] at hid
        have h := Except.ok.inj hid
        rw [← h, ← hjoin]
        rfl
      · exact Except.ok.inj hid
    obtain ⟨rfl, rfl⟩ := Prod.mk.inj hlower
    rfl
  | cons sign more =>
    change (if sign.isComparator "=" = true then _ else _) = _
    rw [if_neg (by rw [he sign rfl]; decide)]
    change (identifier _ _ _ _).bind _ = _
    rw [hid]
    rfl

section Clause
variable {scope : Scope} {r : Registry} {t : Token} {rest : List Token} {n : Nat}

theorem clause_group (ht : t.kind = .openParen) (hv : e.view rest = .ok ()) :
    clause e (n + 1) scope r (t :: rest) =
      (query e (clause e n scope) r rest).bind (Parsed.close e) := by
  simp only [clause, ht, ↓reduceIte, hv]
  rfl

theorem close_eq {q : Parsed} (hr : q.rest = t :: rest) (ht : t.kind = .closeParen)
    (hv : e.view rest = .ok ()) : q.close e = .ok { q with rest := rest } := by
  have h : (fun t : Token => t.kind == .closeParen) t = true := by simp [ht]
  simp only [Parsed.close, hr, expect_cons (q := fun t => t.kind == .closeParen) h hv]
  rfl

theorem kind_ne_openParen (ht : t.isWord = true) : t.kind ≠ .openParen := by
  rcases Token.isWord_iff.1 ht with h | h <;> simp [h]

theorem clause_term (ht : t.isWord = true) (hrest : ∀ u ∈ rest.head?, u.isRelation = false)
    (hv : e.view rest = .ok ()) :
    clause e (n + 1) scope r (t :: rest) = .ok (clause.term scope r t rest) := by
  simp only [clause, kind_ne_openParen ht, ht, ↓reduceIte, hv]
  cases rest with
  | nil => rfl
  | cons u rest =>
    simp only [hrest u rfl, Bool.false_eq_true, ↓reduceIte]
    rfl

theorem clause_scoped {u : Token} {more : List Token} (ht : t.isWord = true)
    (hu : u.isRelation = true) (hv : e.view more = .ok ()) :
    clause e (n + 1) scope r (t :: u :: more) =
      (modifiers e more).bind fun (ms, left) => clause e n ⟨t.lower, u.lower, ms⟩ r left := by
  rw [clause]
  simp only [kind_ne_openParen ht, ht, hu, ↓reduceIte, view_cons, hv]
  rfl

theorem clause_declaration (ht : t.isComparator ">" = true) (hv : e.view rest = .ok ()) :
    clause e (n + 1) scope r (t :: rest) =
      (declaration e rest).bind fun (d, left) =>
        query e (clause e n scope) (r.register d.1 d.2) left := by
  have hk := (Token.isComparator_iff.1 ht).1
  have hw : t.isWord = false := by simp [Token.isWord, hk]
  simp only [clause, hk, hw, ht, ↓reduceIte, hv, reduceCtorEq, Bool.false_eq_true]
  rfl

end Clause

section Chain
variable {cl : Registry → List Token → Except Fault Parsed} {left : Parsed}

theorem Token.isKeyword_of_operator? {t : Token} {op : BooleanOp} (h : t.operator? = some op) :
    t.isKeyword = true := by
  rw [isKeyword, h]
  rfl

/-- A keyword stands for an operator. -/
theorem operator_eq {t : Token} {op : BooleanOp} (h : t.operator? = some op) :
    operator t = .ok op := by
  have hkeyword : BooleanOp.ofKeyword? t.lower = some op := by
    unfold Token.operator? at h
    split at h
    · rw [← h, BooleanOp.ofKeyword?, BooleanOp.ofKeyword?, Token.lower,
        (Text.lowered_lowerCase t.value).lowerCase_eq]
    · cases h
  rw [operator, hkeyword]

theorem chain_stop (h : ∀ t ∈ left.rest.head?, t.operator? = none) :
    chain e cl left = .ok left := by
  rw [chain]
  split
  · rfl
  · next t rest hr =>
    have ht : t.isKeyword = false := by
      rw [Token.isKeyword, h t (by rw [hr]; rfl)]
      rfl
    rw [ht]
    rfl

/-- A keyword makes a chain go on with the modifiers of an operator and an operand. -/
theorem chain_keyword {t : Token} {rest : List Token} {op : BooleanOp}
    (hr : left.rest = t :: rest) (ht : t.operator? = some op) (hv : e.view rest = .ok ()) :
    chain e cl left = (modifiers e rest).bind fun (ms, after) =>
      (cl left.registry after).bind fun right =>
        if maxHeight < 1 + max left.height right.height then
          .error ⟨.nestedTooDeeply, some t.start⟩
        else chain e cl ⟨.boolean op ms left.node right.node, 1 + max left.height right.height,
          right.registry, right.rest⟩ := by
  rw [chain]
  split
  · next h => rw [hr] at h; cases h
  · next h =>
    rw [hr] at h
    cases h
    simp only [Token.isKeyword_of_operator? ht, ↓reduceIte, hv, operator_eq ht, dite_eq_ite]
    rfl

theorem chain_step {t : Token} {rest after : List Token} {op : BooleanOp} {ms : List Modifier}
    {right : Parsed} (hr : left.rest = t :: rest) (ht : t.operator? = some op)
    (hv : e.view rest = .ok ()) (hm : modifiers e rest = .ok (ms, after))
    (hc : cl left.registry after = .ok right)
    (hh : 1 + max left.height right.height ≤ maxHeight) :
    chain e cl left =
      chain e cl ⟨.boolean op ms left.node right.node, 1 + max left.height right.height,
        right.registry, right.rest⟩ := by
  rw [chain_keyword hr ht hv, hm]
  change (cl left.registry after).bind _ = _
  rw [hc]
  exact if_neg (Nat.not_lt.2 hh)

theorem chain_error {t : Token} {rest after : List Token} {op : BooleanOp} {ms : List Modifier}
    {fault : Fault} (hr : left.rest = t :: rest) (ht : t.operator? = some op)
    (hv : e.view rest = .ok ()) (hm : modifiers e rest = .ok (ms, after))
    (hc : cl left.registry after = .error fault) : chain e cl left = .error fault := by
  rw [chain_keyword hr ht hv, hm]
  change (cl left.registry after).bind _ = _
  rw [hc]
  rfl

end Chain

end ContextQuery.Cql
