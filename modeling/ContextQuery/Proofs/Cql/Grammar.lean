import ContextQuery.Proofs.Cql.Reading
import ContextQuery.Proofs.Cql.Scan

namespace ContextQuery.Cql

inductive IsModifiers : List Token → List Modifier → List Token → Prop
  | none {ts : List Token} (stop : ∀ t ∈ ts.head?, t.kind ≠ .slash) : IsModifiers ts [] ts
  | flag {slash name : Token} {ts rest : List Token} {ms : List Modifier}
    (mark : slash.kind = .slash) (word : name.isWord = true) (named : name.value ≠ "")
    (stop : ∀ t ∈ ts.head?, t.kind ≠ .comparator) (more : IsModifiers ts ms rest) :
    IsModifiers (slash :: name :: ts) (.flag name.lower :: ms) rest
  | comparison {slash name comparator value : Token} {ts rest : List Token} {ms : List Modifier}
    (mark : slash.kind = .slash) (word : name.isWord = true) (named : name.value ≠ "")
    (relation : comparator.kind = .comparator) (operand : value.isWord = true)
    (more : IsModifiers ts ms rest) :
    IsModifiers (slash :: name :: comparator :: value :: ts)
      (⟨name.lower, comparator.value, value.lower⟩ :: ms) rest

/-- The longest run of tokens behind `last` that go on with an identifier, each where the one in
front of it ends. -/
inductive IsRun (comparators : Bool) : Token → List Token → List Token → List Token → Prop
  | stop {last : Token} {ts : List Token}
    (gap : ∀ t ∈ ts.head?, ¬ (t.continues comparators = true ∧ last.touches t = true)) :
    IsRun comparators last ts [] ts
  | step {last t : Token} {ts run rest : List Token} (continues : t.continues comparators = true)
    (touches : last.touches t = true) (more : IsRun comparators t ts run rest) :
    IsRun comparators last (t :: ts) (t :: run) rest

inductive IsIdentifier (comparators : Bool) : List Token → String → List Token → Prop
  | quoted {t : Token} {rest : List Token} (kind : t.kind = .quoted) :
    IsIdentifier comparators (t :: rest) t.lower rest
  | bare {t : Token} {ts run rest : List Token} (kind : t.kind = .bareword)
    (more : IsRun comparators t ts run rest) :
    IsIdentifier comparators (t :: ts) (String.join ((t :: run).map Token.lower)) rest

inductive IsDeclaration : List Token → String × String → List Token → Prop
  | named {key sign : Token} {ts rest : List Token} {id : String} (word : key.isWord = true)
    (equals : sign.isComparator "=" = true) (identifier : IsIdentifier true ts id rest) :
    IsDeclaration (key :: sign :: ts) (key.lower, id) rest
  | unnamed {t : Token} {ts rest : List Token} {id : String}
    (bare : ∀ u ∈ ts.head?, u.isComparator "=" = false)
    (identifier : IsIdentifier false (t :: ts) id rest) :
    IsDeclaration (t :: ts) (unnamedPrefix, id) rest

theorem IsModifiers.suffix {ts rest : List Token} {ms : List Modifier}
    (h : IsModifiers ts ms rest) : rest <:+ ts := by
  induction h with
  | none => exact List.suffix_refl _
  | flag _ _ _ _ _ ih => exact (ih.trans (List.suffix_cons _ _)).trans (List.suffix_cons _ _)
  | comparison _ _ _ _ _ _ ih =>
    exact ih.trans (List.suffix_append [_, _, _, _] _)

theorem IsRun.suffix {c : Bool} {last : Token} {ts run rest : List Token}
    (h : IsRun c last ts run rest) : rest <:+ ts := by
  induction h with
  | stop => exact List.suffix_refl _
  | step _ _ _ ih => exact ih.trans (List.suffix_cons _ _)

theorem IsIdentifier.suffix {c : Bool} {ts rest : List Token} {id : String}
    (h : IsIdentifier c ts id rest) : rest <:+ ts := by
  cases h with
  | quoted => exact List.suffix_cons _ _
  | bare _ more => exact more.suffix.trans (List.suffix_cons _ _)

theorem IsDeclaration.suffix {ts rest : List Token} {d : String × String}
    (h : IsDeclaration ts d rest) : rest <:+ ts := by
  cases h with
  | named _ _ identifier => exact identifier.suffix.trans (List.suffix_append [_, _] _)
  | unnamed _ identifier => exact identifier.suffix

/-- What a phrase means: its tree, how many clauses within each other it takes to read it, and what
it declares, in the order of the text. -/
structure Meaning where
  node : Node
  nesting : Nat
  declared : List (String × String)

inductive Phrase
  | query
  | clause
  /-- The operators and operands behind the clauses that mean `left`. -/
  | chain (left : Meaning)

/-- The tokens begin with a phrase. The scope is what its clauses inherit and the registry what has
been declared in front of it; those of a chain are the ones its query has. -/
inductive Derives : Phrase → Scope → Registry → List Token → Meaning → List Token → Prop
  | query {scope : Scope} {r : Registry} {ts mid rest : List Token} {first m : Meaning}
    (clause : Derives .clause scope r ts first mid)
    (chain : Derives (.chain first) scope r mid m rest) : Derives .query scope r ts m rest
  | stop {scope : Scope} {r : Registry} {ts : List Token} {left : Meaning}
    (stop : ∀ t ∈ ts.head?, t.operator? = none) : Derives (.chain left) scope r ts left ts
  | operator {scope : Scope} {r : Registry} {t : Token} {ts mid after rest : List Token}
    {left right m : Meaning} {op : BooleanOp} {ms : List Modifier} (keyword : t.operator? = some op)
    (modifiers : IsModifiers ts ms mid)
    (operand : Derives .clause scope (r.registerAll left.declared) mid right after)
    (chain : Derives (.chain ⟨.boolean op ms left.node right.node, max left.nesting right.nesting,
      left.declared ++ right.declared⟩) scope r after m rest) :
    Derives (.chain left) scope r (t :: ts) m rest
  | group {scope : Scope} {r : Registry} {opening closing : Token} {ts rest : List Token}
    {m : Meaning} (opens : opening.kind = .openParen)
    (query : Derives .query scope r ts m (closing :: rest)) (closes : closing.kind = .closeParen) :
    Derives .clause scope r (opening :: ts) ⟨m.node, m.nesting + 1, m.declared⟩ rest
  | term {scope : Scope} {r : Registry} {t : Token} {rest : List Token} (word : t.isWord = true)
    (stop : ∀ u ∈ rest.head?, u.isRelation = false) :
    Derives .clause scope r (t :: rest)
      ⟨.clause (.resolve r scope.field scope.relation scope.modifiers t.lower), 1, []⟩ rest
  | indexed {scope : Scope} {r : Registry} {t relation : Token} {ts mid rest : List Token}
    {ms : List Modifier} {m : Meaning} (word : t.isWord = true)
    (isRelation : relation.isRelation = true) (modifiers : IsModifiers ts ms mid)
    (clause : Derives .clause ⟨t.lower, relation.lower, ms⟩ r mid m rest) :
    Derives .clause scope r (t :: relation :: ts) ⟨m.node, m.nesting + 1, m.declared⟩ rest
  | declaration {scope : Scope} {r : Registry} {t : Token} {ts mid rest : List Token}
    {d : String × String} {m : Meaning} (mark : t.isComparator ">" = true)
    (declaration : IsDeclaration ts d mid)
    (query : Derives .query scope (r.register d.1 d.2) mid m rest) :
    Derives .clause scope r (t :: ts) ⟨m.node, m.nesting + 1, d :: m.declared⟩ rest

def Meaning.parsed (m : Meaning) (r : Registry) (rest : List Token) : Parsed :=
  ⟨m.node, m.node.height, r.registerAll m.declared, rest⟩

section Completeness
variable {e : Ending}

theorem modifiers_of_isModifiers {ts rest : List Token} {ms : List Modifier}
    (h : IsModifiers ts ms rest) (hv : e.view rest = .ok ()) : modifiers e ts = .ok (ms, rest) := by
  induction h with
  | none stop => exact modifiers_stop stop
  | @flag _ name ts _ _ mark word named stop more ih =>
    have hview := view_of_suffix more.suffix hv
    have hm := (modifier_eq word named hview).trans (namedModifier_flag name stop)
    rw [modifiers_slash mark hm, ih hv]
    rfl
  | @comparison _ name comparator value ts _ _ mark word named relation operand more ih =>
    have hview := view_of_suffix more.suffix hv
    have hm := (modifier_eq word named (view_cons _ _)).trans
      (namedModifier_comparator name relation operand hview)
    rw [modifiers_slash mark hm, ih hv]
    rfl

theorem adjacent_of_isRun {c : Bool} {last : Token} {ts run rest : List Token}
    (h : IsRun c last ts run rest) : adjacent c last ts = (run, rest) := by
  induction h with
  | @stop last ts gap =>
    cases ts with
    | nil => rfl
    | cons t ts =>
      rw [adjacent, if_neg]
      rw [Bool.and_eq_true]
      exact gap t rfl
  | step continues touches _ ih =>
    rw [adjacent, if_pos (by rw [continues, touches]; rfl), ih]

theorem identifier_of_isIdentifier {c : Bool} {t : Token} {ts rest : List Token} {id : String}
    (h : IsIdentifier c (t :: ts) id rest) (hv : e.view rest = .ok ()) :
    identifier e c t ts = .ok (id, rest) := by
  cases h with
  | quoted kind => exact if_pos kind
  | bare kind more =>
    rw [identifier, if_neg (by rw [kind]; decide), adjacent_of_isRun more]
    change (e.view rest).bind _ = _
    rw [hv]
    rfl

/-- An identifier begins with a word. -/
theorem isWord_of_isIdentifier {c : Bool} {ts rest : List Token} {id : String}
    (h : IsIdentifier c ts id rest) : ∃ t us, ts = t :: us ∧ t.isWord = true ∧ rest <:+ us := by
  cases h with
  | quoted kind => exact ⟨_, _, rfl, Token.isWord_iff.2 (.inr kind), List.suffix_refl _⟩
  | bare kind more => exact ⟨_, _, rfl, Token.isWord_iff.2 (.inl kind), more.suffix⟩

theorem declaration_of_isDeclaration {ts rest : List Token} {d : String × String}
    (h : IsDeclaration ts d rest) (hv : e.view rest = .ok ()) :
    declaration e ts = .ok (d, rest) := by
  cases h with
  | named word equals identifier =>
    obtain ⟨start, left, rfl, hstart, hsuffix⟩ := isWord_of_isIdentifier identifier
    exact declaration_named word equals hstart (view_of_suffix hsuffix hv)
      (identifier_of_isIdentifier identifier hv)
  | unnamed bare identifier =>
    obtain ⟨start, left, hts, hstart, hsuffix⟩ := isWord_of_isIdentifier identifier
    cases hts
    exact declaration_unnamed hstart bare (view_of_suffix hsuffix hv)
      (identifier_of_isIdentifier identifier hv)

theorem Derives.suffix {phrase : Phrase} {scope : Scope} {r : Registry} {ts rest : List Token}
    {m : Meaning} (h : Derives phrase scope r ts m rest) : rest <:+ ts := by
  induction h with
  | query _ _ ihf ihc => exact ihc.trans ihf
  | stop => exact List.suffix_refl _
  | operator _ modifiers _ _ iho ihc =>
    exact ((ihc.trans iho).trans modifiers.suffix).trans (List.suffix_cons _ _)
  | group _ _ _ ih => exact ((List.suffix_cons _ _).trans ih).trans (List.suffix_cons _ _)
  | term => exact List.suffix_cons _ _
  | indexed _ _ modifiers _ ih =>
    exact (ih.trans modifiers.suffix).trans (List.suffix_append [_, _] _)
  | declaration _ declaration _ ih =>
    exact (ih.trans declaration.suffix).trans (List.suffix_cons _ _)

def Accepts (e : Ending) : Phrase → Scope → Registry → List Token → Meaning → List Token → Prop
  | .query, scope, r, ts, m, rest => ∀ n, m.nesting ≤ n → m.node.height ≤ maxHeight →
    query e (clause e n scope) r ts = .ok (m.parsed r rest)
  | .clause, scope, r, ts, m, rest => ∀ n, m.nesting ≤ n → m.node.height ≤ maxHeight →
    clause e n scope r ts = .ok (m.parsed r rest)
  | .chain left, scope, r, ts, m, rest =>
    (left.nesting ≤ m.nesting ∧ left.node.height ≤ m.node.height) ∧
    ∀ n, m.nesting ≤ n → m.node.height ≤ maxHeight →
      chain e (clause e n scope) (left.parsed r ts) = .ok (m.parsed r rest)

/-- The reader reads what the grammar derives, where it can see what comes next. -/
theorem accepts_of_derives {phrase : Phrase} {scope : Scope} {r : Registry} {ts rest : List Token}
    {m : Meaning} (h : Derives phrase scope r ts m rest) (hv : e.view rest = .ok ()) :
    Accepts e phrase scope r ts m rest := by
  induction h with
  | query _ chain ihf ihc =>
    intro n hn hh
    obtain ⟨⟨hnest, hheight⟩, hchain⟩ := ihc hv
    change (Cql.clause _ _ _ _ _).bind _ = _
    rw [ihf (view_of_suffix chain.suffix hv) n (by omega) (by omega)]
    exact hchain n hn hh
  | stop stop => exact ⟨⟨Nat.le_refl _, Nat.le_refl _⟩, fun n _ _ => chain_stop stop⟩
  | @operator _ r _ _ _ _ _ left right m op ms keyword modifiers operand chain iho ihc =>
    obtain ⟨⟨hnest, hheight⟩, hchain⟩ := ihc hv
    dsimp only [Node.height] at hnest hheight
    have hafter := view_of_suffix chain.suffix hv
    have hmid := view_of_suffix operand.suffix hafter
    -- What the chain means in the end is at least as deep and as high as each step of it.
    refine ⟨by omega, fun n hn hh => ?_⟩
    have hstep := hchain n hn hh
    rw [Meaning.parsed, ← Registry.registerAll_append] at hstep
    rw [chain_step rfl keyword (view_of_suffix modifiers.suffix hmid)
      (modifiers_of_isModifiers modifiers hmid) (iho hafter n (by omega) (by omega))
      (by dsimp only [Meaning.parsed]; omega)]
    exact hstep
  | group opens query closes ih =>
    intro n hn hh
    obtain ⟨k, rfl⟩ := Nat.exists_eq_add_of_le' (Nat.le_of_add_left_le hn)
    rw [clause_group opens (view_of_suffix query.suffix (view_cons _ _)),
      ih (view_cons _ _) k (by dsimp only at hn; omega) hh]
    exact close_eq rfl closes hv
  | term word stop =>
    intro n hn _
    obtain ⟨k, rfl⟩ := Nat.exists_eq_add_of_le' hn
    exact clause_term word stop hv
  | indexed word isRelation modifiers clause ih =>
    intro n hn hh
    obtain ⟨k, rfl⟩ := Nat.exists_eq_add_of_le' (Nat.le_of_add_left_le hn)
    have hmid := view_of_suffix clause.suffix hv
    rw [clause_scoped word isRelation (view_of_suffix modifiers.suffix hmid),
      modifiers_of_isModifiers modifiers hmid]
    exact ih hv k (by dsimp only at hn; omega) hh
  | declaration mark declaration query ih =>
    intro n hn hh
    obtain ⟨k, rfl⟩ := Nat.exists_eq_add_of_le' (Nat.le_of_add_left_le hn)
    have hmid := view_of_suffix query.suffix hv
    rw [clause_declaration mark (view_of_suffix declaration.suffix hmid),
      declaration_of_isDeclaration declaration hmid]
    exact ih hv k (by dsimp only at hn; omega) hh

end Completeness

section Soundness
variable {e : Ending}

theorem expect_inv {cause : Cause} {q : Token → Bool} {ts rest : List Token} {t : Token}
    (h : expect e cause q ts = .ok (t, rest)) :
    ts = t :: rest ∧ q t = true ∧ e.view rest = .ok () := by
  obtain rfl := expect_eq_ok h
  dsimp only [expect] at h
  split at h
  · next hq =>
    obtain ⟨⟨⟩, hv, -⟩ := bind_eq_ok_iff.1 h
    exact ⟨rfl, hq, hv⟩
  · cases h

/-- A named modifier is a flag unless a comparator follows. -/
theorem namedModifier_inv {name : Token} {ts rest : List Token} {m : Modifier}
    (hv : e.view ts = .ok ()) (h : namedModifier e name ts = .ok (m, rest)) :
    e.view rest = .ok () ∧
      (m = .flag name.lower ∧ ts = rest ∧ (∀ t ∈ ts.head?, t.kind ≠ .comparator) ∨
        ∃ comparator value, ts = comparator :: value :: rest ∧ comparator.kind = .comparator ∧
          value.isWord = true ∧ m = ⟨name.lower, comparator.value, value.lower⟩) := by
  cases ts with
  | nil =>
    cases h
    exact ⟨hv, .inl ⟨rfl, rfl, fun _ ht => nomatch ht⟩⟩
  | cons t ts =>
    dsimp only [namedModifier] at h
    split at h
    · next hc =>
      obtain ⟨-, -, hword⟩ := bind_eq_ok_iff.1 h
      obtain ⟨⟨value, left⟩, hw, hret⟩ := bind_eq_ok_iff.1 hword
      obtain ⟨hts, hvalue, hview⟩ := expect_inv hw
      cases hret
      subst hts
      exact ⟨hview, .inr ⟨t, value, rfl, hc, hvalue, rfl⟩⟩
    · next hc =>
      cases h
      refine ⟨hv, .inl ⟨rfl, rfl, fun u hu => ?_⟩⟩
      rw [← Option.some.inj hu]
      exact hc

theorem modifier_inv {ts rest : List Token} {m : Modifier} (h : modifier e ts = .ok (m, rest)) :
    ∃ name us, ts = name :: us ∧ name.isWord = true ∧ name.value ≠ "" ∧ e.view us = .ok () ∧
      namedModifier e name us = .ok (m, rest) := by
  obtain ⟨-, -, hword⟩ := bind_eq_ok_iff.1 h
  obtain ⟨⟨name, us⟩, hn, hnamed⟩ := bind_eq_ok_iff.1 hword
  obtain ⟨hts, hq, hv⟩ := expect_inv hn
  rw [Bool.and_eq_true, Bool.not_eq_true', String.isEmpty_eq_false_iff] at hq
  exact ⟨name, us, hts, hq.1, hq.2, hv, hnamed⟩

theorem isModifiers_of_modifiers {ts rest : List Token} {ms : List Modifier}
    (hv : e.view ts = .ok ()) (h : modifiers e ts = .ok (ms, rest)) :
    IsModifiers ts ms rest ∧ e.view rest = .ok () := by
  fun_induction modifiers e ts generalizing ms with
  | case1 =>
    cases h
    exact ⟨.none fun _ ht => (nomatch ht), hv⟩
  | case2 => cases h
  | case3 slash ts hs m left hm _ ih =>
    obtain ⟨name, us, rfl, hw, hne, hus, hn⟩ := modifier_inv hm
    obtain ⟨hleft, hcases⟩ := namedModifier_inv hus hn
    cases hmore : modifiers e left with
    | error fault => rw [hmore] at h; cases h
    | ok more =>
      rw [hmore] at h
      cases h
      obtain ⟨hmods, hrest⟩ := ih hleft hmore
      refine ⟨?_, hrest⟩
      rcases hcases with ⟨rfl, rfl, hstop⟩ | ⟨comparator, value, rfl, hc, hvalue, rfl⟩
      · exact .flag hs hw hne hstop hmods
      · exact .comparison hs hw hne hc hvalue hmods
  | case4 slash ts hs =>
    cases h
    refine ⟨.none fun t ht => ?_, hv⟩
    rw [← Option.some.inj ht]
    exact hs

theorem isRun_adjacent (c : Bool) (last : Token) (ts : List Token) :
    IsRun c last ts (adjacent c last ts).1 (adjacent c last ts).2 := by
  induction ts generalizing last with
  | nil => exact .stop fun _ h => nomatch h
  | cons t ts ih =>
    rw [adjacent]
    split
    · next h =>
      rw [Bool.and_eq_true] at h
      exact .step h.1 h.2 (ih t)
    · next h =>
      refine .stop fun u hu => ?_
      rw [← Option.some.inj hu, ← Bool.and_eq_true]
      exact h

theorem isIdentifier_of_identifier {c : Bool} {t : Token} {ts rest : List Token} {id : String}
    (hw : t.isWord = true) (hv : e.view ts = .ok ()) (h : identifier e c t ts = .ok (id, rest)) :
    IsIdentifier c (t :: ts) id rest ∧ e.view rest = .ok () := by
  unfold identifier at h
  split at h
  · next hq =>
    cases h
    exact ⟨.quoted hq, hv⟩
  · next hq =>
    obtain ⟨⟨⟩, hview, h⟩ := bind_eq_ok_iff.1 h
    cases h
    exact ⟨.bare ((Token.isWord_iff.1 hw).resolve_right hq) (isRun_adjacent c t ts), hview⟩

theorem isDeclaration_of_declaration {ts rest : List Token} {d : String × String}
    (h : declaration e ts = .ok (d, rest)) : IsDeclaration ts d rest ∧ e.view rest = .ok () := by
  obtain ⟨⟨first, left⟩, hf, hmore⟩ := bind_eq_ok_iff.1 h
  obtain ⟨hts, hw, hv⟩ := expect_inv hf
  subst hts
  cases left with
  | nil =>
    cases hmore
    -- At the end of the text the reader takes the word as it is, which is a run of no more tokens.
    have hid : IsIdentifier false [first] first.lower [] := by
      rcases Token.isWord_iff.1 hw with hk | hk
      · have hrun : IsRun false first [] [] [] := .stop fun _ ht => nomatch ht
        simpa [String.join] using IsIdentifier.bare hk hrun
      · exact .quoted hk
    exact ⟨.unnamed (fun _ ht => nomatch ht) hid, hv⟩
  | cons sign more =>
    change (if sign.isComparator "=" = true then _ else _) = _ at hmore
    split at hmore
    · next hsign =>
      obtain ⟨-, -, hword⟩ := bind_eq_ok_iff.1 hmore
      obtain ⟨⟨start, left⟩, hs, hident⟩ := bind_eq_ok_iff.1 hword
      obtain ⟨⟨id, left'⟩, hid, hret⟩ := bind_eq_ok_iff.1 hident
      obtain ⟨hts, hstart, hleft⟩ := expect_inv hs
      cases hret
      subst hts
      obtain ⟨hi, hrest⟩ := isIdentifier_of_identifier hstart hleft hid
      exact ⟨.named hw hsign hi, hrest⟩
    · next hsign =>
      obtain ⟨⟨id, left'⟩, hid, hret⟩ := bind_eq_ok_iff.1 hmore
      cases hret
      obtain ⟨hi, hrest⟩ := isIdentifier_of_identifier hw hv hid
      refine ⟨.unnamed (fun u hu => ?_) hi, hrest⟩
      rw [← Option.some.inj hu]
      exact Bool.eq_false_iff.2 hsign

/-- Is what has been read the meaning of a phrase, with no more than `n` clauses within each other
and in a tree that is not too high? -/
def Understands (e : Ending) (n : Nat) (phrase : Phrase) (scope : Scope) (r : Registry)
    (ts : List Token) (q : Parsed) : Prop :=
  ∃ m rest, Derives phrase scope r ts m rest ∧ q = m.parsed r rest ∧ m.nesting ≤ n ∧
    m.node.height ≤ maxHeight ∧ e.view rest = .ok ()

variable {n : Nat} {scope : Scope} {cl : Registry → List Token → Except Fault Parsed}

theorem understands_chain {r : Registry}
    (hcl : ∀ r ts q, cl r ts = .ok q → Understands e n .clause scope r ts q) {left : Meaning}
    {ts : List Token} {q : Parsed} (hn : left.nesting ≤ n) (hh : left.node.height ≤ maxHeight)
    (hv : e.view ts = .ok ()) (h : chain e cl (left.parsed r ts) = .ok q) :
    Understands e n (.chain left) scope r ts q := by
  generalize hl : left.parsed r ts = start at h
  fun_induction chain e cl start generalizing left ts with
  | case1 start hrest =>
    cases h
    subst hl
    obtain rfl : ts = [] := hrest
    exact ⟨left, [], .stop fun _ ht => (nomatch ht), rfl, hn, hh, hv⟩
  | case2 start t rest hrest hkeyword ih =>
    subst hl
    obtain rfl : ts = t :: rest := hrest
    obtain ⟨op, hop⟩ := Option.isSome_iff_exists.1 hkeyword
    obtain ⟨⟨⟩, hview, hoperator⟩ := bind_eq_ok_iff.1 h
    obtain ⟨op', hop', hmods⟩ := bind_eq_ok_iff.1 hoperator
    obtain rfl := Except.ok.inj ((operator_eq hop).symm.trans hop')
    obtain ⟨⟨ms, mid⟩, hms, hclause⟩ := bind_eq_ok_iff.1 hmods
    obtain ⟨right, hright, hif⟩ := bind_eq_ok_iff.1 hclause
    obtain ⟨hmodifiers, hmid⟩ := isModifiers_of_modifiers hview hms
    obtain ⟨m, after, hm, rfl, hmn, hmh, hafter⟩ := hcl _ _ _ hright
    change (if _h : maxHeight < 1 + max left.node.height m.node.height then _ else _) = _ at hif
    split at hif
    · cases hif
    · next hfits =>
      have hnext : Understands e n (.chain ⟨.boolean op ms left.node m.node,
          max left.nesting m.nesting, left.declared ++ m.declared⟩) scope r after q := by
        refine ih op ms (m.parsed (r.registerAll left.declared) after) hfits (Nat.max_le.2 ⟨hn, hmn⟩)
          (Nat.not_lt.1 hfits) hafter ?_ hif
        simp only [Meaning.parsed, Node.height, Registry.registerAll_append]
      obtain ⟨m', rest', hm', rfl, hmn', hmh', hrest'⟩ := hnext
      exact ⟨m', rest', .operator hop hmodifiers hm hm', rfl, hmn', hmh', hrest'⟩
  | case3 start t rest hrest hkeyword =>
    cases h
    subst hl
    obtain rfl : ts = t :: rest := hrest
    refine ⟨left, _, .stop fun u hu => ?_, rfl, hn, hh, hv⟩
    rw [← Option.some.inj hu]
    exact Option.not_isSome_iff_eq_none.1 hkeyword

theorem understands_query {r : Registry} {ts : List Token} {q : Parsed}
    (hcl : ∀ r ts q, cl r ts = .ok q → Understands e n .clause scope r ts q)
    (h : query e cl r ts = .ok q) : Understands e n .query scope r ts q := by
  obtain ⟨first, hfirst, hchain⟩ := bind_eq_ok_iff.1 h
  obtain ⟨m, mid, hm, rfl, hmn, hmh, hmid⟩ := hcl _ _ _ hfirst
  obtain ⟨m', rest, hm', rfl, hmn', hmh', hrest⟩ := understands_chain hcl hmn hmh hmid hchain
  exact ⟨m', rest, .query hm hm', rfl, hmn', hmh', hrest⟩

/-- The grammar derives what the reader reads, and no reader gets past a literal without an end. -/
theorem understands_clause {r : Registry} {ts : List Token} {q : Parsed}
    (h : clause e n scope r ts = .ok q) : Understands e n .clause scope r ts q := by
  induction n generalizing scope r ts q with
  | zero => cases ts <;> cases h
  | succ n ih =>
    cases ts with
    | nil => cases h
    | cons t rest =>
      -- A query inside the clause has one level less, so its clauses are those of the induction.
      have hquery (r : Registry) (ts : List Token) (q : Parsed)
          (hq : query e (clause e n scope) r ts = .ok q) : Understands e n .query scope r ts q :=
        understands_query (fun _ _ _ => ih) hq
      unfold clause at h
      split at h
      · next ht =>
        obtain ⟨⟨⟩, -, hinner⟩ := bind_eq_ok_iff.1 h
        obtain ⟨inner, hread, hclose⟩ := bind_eq_ok_iff.1 hinner
        obtain ⟨m, mid, hm, rfl, hmn, hmh, -⟩ := hquery _ _ _ hread
        obtain ⟨⟨closing, left⟩, hclosing, hret⟩ := bind_eq_ok_iff.1 hclose
        obtain ⟨hmid, hk, hleft⟩ := expect_inv hclosing
        cases hret
        obtain rfl : mid = closing :: left := hmid
        exact ⟨_, left, .group ht hm (beq_iff_eq.1 hk), rfl, Nat.succ_le_succ hmn, hmh, hleft⟩
      · -- A word is a term unless a relation follows, at the end of the text as anywhere.
        split at h
        · next hw =>
          obtain ⟨⟨⟩, hv, hmore⟩ := bind_eq_ok_iff.1 h
          have hterm (hstop : ∀ u ∈ rest.head?, u.isRelation = false) :
              Understands e (n + 1) .clause scope r (t :: rest) (clause.term scope r t rest) :=
            ⟨_, rest, .term hw hstop, rfl, Nat.le_add_left 1 n, show 1 ≤ maxHeight by decide, hv⟩
          split at hmore
          · next relation more =>
            split at hmore
            · next hr =>
              obtain ⟨⟨⟩, hv', hmods⟩ := bind_eq_ok_iff.1 hmore
              obtain ⟨⟨ms, left⟩, hms, hclause⟩ := bind_eq_ok_iff.1 hmods
              obtain ⟨hmodifiers, hleft⟩ := isModifiers_of_modifiers hv' hms
              obtain ⟨m, mid, hm, rfl, hmn, hmh, hmid⟩ := ih hclause
              exact ⟨_, mid, .indexed hw hr hmodifiers hm, rfl, Nat.succ_le_succ hmn, hmh, hmid⟩
            · next hr =>
              cases hmore
              refine hterm fun u hu => ?_
              rw [← Option.some.inj hu]
              exact Bool.eq_false_iff.2 hr
          · cases hmore
            exact hterm fun _ hu => nomatch hu
        · split at h
          · next hm =>
            obtain ⟨⟨⟩, hv, hdecl⟩ := bind_eq_ok_iff.1 h
            obtain ⟨⟨⟨key, id⟩, left⟩, hd, hread⟩ := bind_eq_ok_iff.1 hdecl
            obtain ⟨hdeclaration, -⟩ := isDeclaration_of_declaration hd
            obtain ⟨m, mid, hm', rfl, hmn, hmh, hmid⟩ := hquery _ _ _ hread
            exact ⟨_, mid, .declaration hm hdeclaration hm', rfl, Nat.succ_le_succ hmn, hmh, hmid⟩
          · cases h

end Soundness

/-- Does the text as a whole mean this, within the limits of the reader? -/
structure Means (choice : ServerChoice) (text : String) (m : Meaning) : Prop where
  notBlank : Text.isBlankText text = false
  derives : ∃ ts p, tokenize text = .ok (ts ++ [.endOfText p]) ∧
    Derives .query (.ofChoice choice) .seeded ts m []
  nesting : m.nesting ≤ maxNesting
  height : m.node.height ≤ maxHeight

section Text
variable {choice : ServerChoice} {text : String} {m : Meaning}

theorem read_of_means (h : Means choice text m) :
    read choice text = .ok ⟨some text, m.node, Registry.seeded.registerAll m.declared, choice⟩ := by
  obtain ⟨ts, p, ht, hd⟩ := h.derives
  rw [read_eq h.notBlank, tokenize_inv ht]
  change ((Ending.complete p).view ts).bind _ = _
  rw [view_complete]
  change (query (.complete p) _ _ ts).bind _ = _
  rw [accepts_of_derives hd (view_complete []) maxNesting h.nesting h.height]
  rfl

theorem means_of_read {q : Query} (h : read choice text = .ok q) :
    ∃ m, Means choice text m ∧
      q = ⟨some text, m.node, Registry.seeded.registerAll m.declared, choice⟩ := by
  have hb : Text.isBlankText text = false := by
    rw [read] at h
    split at h
    · cases h
    · next hb => exact Bool.eq_false_iff.2 hb
  rw [read_eq hb] at h
  obtain ⟨⟨⟩, -, hquery⟩ := bind_eq_ok_iff.1 h
  obtain ⟨parsed, hread, hfinish⟩ := bind_eq_ok_iff.1 hquery
  obtain ⟨m, rest, hm, rfl, hn, hh, hv⟩ :=
    understands_query (fun _ _ _ => understands_clause) hread
  cases rest with
  | cons t rest => cases hfinish
  | nil =>
    cases hfinish
    refine ⟨m, ⟨hb, ?_, hn, hh⟩, rfl⟩
    -- Nothing is left, so the literal that the view did not find cannot be there.
    cases he : (Scan.ofText text).ending with
    | broken fault => rw [he] at hv; cases hv
    | complete p => exact ⟨_, p, tokenize_eq_ok he rfl, hm⟩

/-- The reader accepts exactly the texts of the grammar and reads exactly what they mean. -/
theorem read_eq_ok_iff {q : Query} :
    read choice text = .ok q ↔ ∃ m, Means choice text m ∧
      q = ⟨some text, m.node, Registry.seeded.registerAll m.declared, choice⟩ := by
  constructor
  · exact means_of_read
  · rintro ⟨m, hm, rfl⟩
    exact read_of_means hm

end Text

end ContextQuery.Cql
