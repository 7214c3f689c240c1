import ContextQuery.Proofs.Cql.Grammar

namespace ContextQuery.Cql

structure Meaning.Fits (n : Nat) (m : Meaning) : Prop where
  nesting : m.nesting ≤ n
  height : m.node.height ≤ maxHeight

def Meaning.joined (left : Meaning) (op : BooleanOp) (ms : List Modifier) (right : Meaning) :
    Meaning :=
  ⟨.boolean op ms left.node right.node, max left.nesting right.nesting,
    left.declared ++ right.declared⟩

inductive RefusesModifiers : List Token → Cause → List Token → Prop
  | name {slash : Token} {ts : List Token} (mark : slash.kind = .slash)
    (nameless : ∀ t ∈ ts.head?, ¬ (t.isWord = true ∧ t.value ≠ "")) :
    RefusesModifiers (slash :: ts) .invalidModifier ts
  | value {slash name comparator : Token} {ts : List Token} (mark : slash.kind = .slash)
    (word : name.isWord = true) (named : name.value ≠ "") (relation : comparator.kind = .comparator)
    (missing : ∀ t ∈ ts.head?, t.isWord = false) :
    RefusesModifiers (slash :: name :: comparator :: ts) .invalidModifierRelation ts
  | flag {slash name : Token} {ts place : List Token} {cause : Cause}
    (mark : slash.kind = .slash) (word : name.isWord = true) (named : name.value ≠ "")
    (stop : ∀ t ∈ ts.head?, t.kind ≠ .comparator) (more : RefusesModifiers ts cause place) :
    RefusesModifiers (slash :: name :: ts) cause place
  | comparison {slash name comparator value : Token} {ts place : List Token} {cause : Cause}
    (mark : slash.kind = .slash) (word : name.isWord = true) (named : name.value ≠ "")
    (relation : comparator.kind = .comparator) (operand : value.isWord = true)
    (more : RefusesModifiers ts cause place) :
    RefusesModifiers (slash :: name :: comparator :: value :: ts) cause place

inductive RefusesDeclaration : List Token → List Token → Prop
  | first {ts : List Token} (missing : ∀ t ∈ ts.head?, t.isWord = false) : RefusesDeclaration ts ts
  | identifier {key sign : Token} {ts : List Token} (word : key.isWord = true)
    (equals : sign.isComparator "=" = true) (missing : ∀ t ∈ ts.head?, t.isWord = false) :
    RefusesDeclaration (key :: sign :: ts) ts

/-- The tokens begin with no such phrase where there is room for `n` clauses within each other: for
this cause, and with what is left of them at the token to blame. -/
inductive Refuses : Nat → Phrase → Scope → Registry → List Token → Cause → List Token → Prop
  | first {n : Nat} {scope : Scope} {r : Registry} {ts place : List Token} {cause : Cause}
    (clause : Refuses n .clause scope r ts cause place) : Refuses n .query scope r ts cause place
  | further {n : Nat} {scope : Scope} {r : Registry} {ts mid place : List Token} {cause : Cause}
    {m : Meaning} (clause : Derives .clause scope r ts m mid) (fits : m.Fits n)
    (chain : Refuses n (.chain m) scope r mid cause place) :
    Refuses n .query scope r ts cause place
  | operator {n : Nat} {scope : Scope} {r : Registry} {t : Token} {ts place : List Token}
    {cause : Cause} {left : Meaning} {op : BooleanOp} (keyword : t.operator? = some op)
    (modifiers : RefusesModifiers ts cause place) :
    Refuses n (.chain left) scope r (t :: ts) cause place
  | operand {n : Nat} {scope : Scope} {r : Registry} {t : Token} {ts mid place : List Token}
    {cause : Cause} {left : Meaning} {op : BooleanOp} {ms : List Modifier}
    (keyword : t.operator? = some op) (modifiers : IsModifiers ts ms mid)
    (operand : Refuses n .clause scope (r.registerAll left.declared) mid cause place) :
    Refuses n (.chain left) scope r (t :: ts) cause place
  | height {n : Nat} {scope : Scope} {r : Registry} {t : Token} {ts mid after : List Token}
    {left right : Meaning} {op : BooleanOp} {ms : List Modifier} (keyword : t.operator? = some op)
    (modifiers : IsModifiers ts ms mid)
    (operand : Derives .clause scope (r.registerAll left.declared) mid right after)
    (fits : right.Fits n) (high : maxHeight < (left.joined op ms right).node.height) :
    Refuses n (.chain left) scope r (t :: ts) .nestedTooDeeply (t :: ts)
  | chain {n : Nat} {scope : Scope} {r : Registry} {t : Token} {ts mid after place : List Token}
    {cause : Cause} {left right : Meaning} {op : BooleanOp} {ms : List Modifier}
    (keyword : t.operator? = some op) (modifiers : IsModifiers ts ms mid)
    (operand : Derives .clause scope (r.registerAll left.declared) mid right after)
    (fits : (left.joined op ms right).Fits n)
    (chain : Refuses n (.chain (left.joined op ms right)) scope r after cause place) :
    Refuses n (.chain left) scope r (t :: ts) cause place
  | nesting {scope : Scope} {r : Registry} {ts : List Token} :
    Refuses 0 .clause scope r ts .nestedTooDeeply ts
  | endOfText {n : Nat} {scope : Scope} {r : Registry} :
    Refuses (n + 1) .clause scope r [] .unexpectedEnd []
  | start {n : Nat} {scope : Scope} {r : Registry} {t : Token} {ts : List Token}
    (noGroup : t.kind ≠ .openParen) (noWord : t.isWord = false)
    (noMark : t.isComparator ">" = false) :
    Refuses (n + 1) .clause scope r (t :: ts) (.unexpected t.value) (t :: ts)
  | group {n : Nat} {scope : Scope} {r : Registry} {opening : Token} {ts place : List Token}
    {cause : Cause} (opens : opening.kind = .openParen)
    (query : Refuses n .query scope r ts cause place) :
    Refuses (n + 1) .clause scope r (opening :: ts) cause place
  | unclosed {n : Nat} {scope : Scope} {r : Registry} {opening : Token} {ts rest : List Token}
    {m : Meaning} (opens : opening.kind = .openParen) (query : Derives .query scope r ts m rest)
    (fits : m.Fits n) (unclosed : ∀ t ∈ rest.head?, t.kind ≠ .closeParen) :
    Refuses (n + 1) .clause scope r (opening :: ts) .missingParenthesis rest
  | relation {n : Nat} {scope : Scope} {r : Registry} {t relation : Token} {ts place : List Token}
    {cause : Cause} (word : t.isWord = true) (isRelation : relation.isRelation = true)
    (modifiers : RefusesModifiers ts cause place) :
    Refuses (n + 1) .clause scope r (t :: relation :: ts) cause place
  | indexed {n : Nat} {scope : Scope} {r : Registry} {t relation : Token}
    {ts mid place : List Token} {cause : Cause} {ms : List Modifier} (word : t.isWord = true)
    (isRelation : relation.isRelation = true) (modifiers : IsModifiers ts ms mid)
    (clause : Refuses n .clause ⟨t.lower, relation.lower, ms⟩ r mid cause place) :
    Refuses (n + 1) .clause scope r (t :: relation :: ts) cause place
  | declaration {n : Nat} {scope : Scope} {r : Registry} {t : Token} {ts place : List Token}
    (mark : t.isComparator ">" = true) (declaration : RefusesDeclaration ts place) :
    Refuses (n + 1) .clause scope r (t :: ts) .expectedWord place
  | declared {n : Nat} {scope : Scope} {r : Registry} {t : Token} {ts mid place : List Token}
    {cause : Cause} {d : String × String} (mark : t.isComparator ">" = true)
    (declaration : IsDeclaration ts d mid)
    (query : Refuses n .query scope (r.register d.1 d.2) mid cause place) :
    Refuses (n + 1) .clause scope r (t :: ts) cause place

/-- A text is refused as a query or for what comes behind one. -/
inductive RefusesText (scope : Scope) : List Token → Cause → List Token → Prop
  | query {ts place : List Token} {cause : Cause}
    (query : Refuses maxNesting .query scope .seeded ts cause place) :
    RefusesText scope ts cause place
  | rest {t : Token} {ts rest : List Token} {m : Meaning}
    (query : Derives .query scope .seeded ts m (t :: rest)) (fits : m.Fits maxNesting) :
    RefusesText scope ts (.expectedEnd t.value) (t :: rest)

theorem RefusesModifiers.suffix {ts place : List Token} {cause : Cause}
    (h : RefusesModifiers ts cause place) : place <:+ ts := by
  induction h with
  | name => exact List.suffix_cons _ _
  | value => exact List.suffix_append [_, _, _] _
  | flag _ _ _ _ _ ih => exact ih.trans (List.suffix_append [_, _] _)
  | comparison _ _ _ _ _ _ ih => exact ih.trans (List.suffix_append [_, _, _, _] _)

theorem RefusesDeclaration.suffix {ts place : List Token} (h : RefusesDeclaration ts place) :
    place <:+ ts := by
  cases h with
  | first => exact List.suffix_refl _
  | identifier => exact List.suffix_append [_, _] _

section Suffix
variable {n : Nat} {phrase : Phrase} {scope : Scope} {r : Registry} {ts place : List Token}
  {cause : Cause}

theorem Refuses.suffix (h : Refuses n phrase scope r ts cause place) : place <:+ ts := by
  induction h with
  | first _ ih => exact ih
  | further clause _ _ ih => exact ih.trans clause.suffix
  | operator _ modifiers => exact modifiers.suffix.trans (List.suffix_cons _ _)
  | operand _ modifiers _ ih => exact (ih.trans modifiers.suffix).trans (List.suffix_cons _ _)
  | height | nesting | endOfText | start => exact List.suffix_refl _
  | chain _ modifiers operand _ _ ih =>
    exact ((ih.trans operand.suffix).trans modifiers.suffix).trans (List.suffix_cons _ _)
  | group _ _ ih => exact ih.trans (List.suffix_cons _ _)
  | unclosed _ query => exact query.suffix.trans (List.suffix_cons _ _)
  | relation _ _ modifiers => exact modifiers.suffix.trans (List.suffix_append [_, _] _)
  | indexed _ _ modifiers _ ih =>
    exact (ih.trans modifiers.suffix).trans (List.suffix_append [_, _] _)
  | declaration _ declaration => exact declaration.suffix.trans (List.suffix_cons _ _)
  | declared _ declaration _ ih =>
    exact (ih.trans declaration.suffix).trans (List.suffix_cons _ _)

theorem RefusesText.suffix (h : RefusesText scope ts cause place) : place <:+ ts := by
  cases h with
  | query query => exact query.suffix
  | rest query => exact query.suffix

end Suffix

section Soundness
variable {e : Ending} {fault : Fault}

/-- Is the fault a literal without an end, or a refusal in a place that has come into view? -/
def Ending.Explains (e : Ending) (fault : Fault) (refuses : Cause → List Token → Prop) : Prop :=
  e = .broken fault ∨
    ∃ cause place, refuses cause place ∧ e.view place = .ok () ∧ fault = e.faultAt place cause

theorem Ending.Explains.imp {refuses refuses' : Cause → List Token → Prop}
    (h : e.Explains fault refuses)
    (himp : ∀ cause place, refuses cause place → refuses' cause place) :
    e.Explains fault refuses' := by
  rcases h with h | ⟨cause, place, hrefuses, hv, hfault⟩
  · exact .inl h
  · exact .inr ⟨cause, place, himp cause place hrefuses, hv, hfault⟩

theorem broken_of_view {ts : List Token} (h : e.view ts = .error fault) : e = .broken fault := by
  cases ts with
  | nil =>
    cases e with
    | complete p => cases h
    | broken fault' =>
      cases h
      rfl
  | cons t ts => rw [view_cons] at h; cases h

/-- What is expected is not there. -/
theorem expect_error {cause : Cause} {q : Token → Bool} {ts : List Token}
    (hv : e.view ts = .ok ()) (h : expect e cause q ts = .error fault) :
    e.Explains fault fun cause' place =>
      cause' = cause ∧ place = ts ∧ ∀ t ∈ ts.head?, q t = false := by
  cases ts with
  | nil =>
    cases h
    exact .inr ⟨cause, [], ⟨rfl, rfl, nofun⟩, hv, rfl⟩
  | cons t ts =>
    dsimp only [expect] at h
    split at h
    · rcases bind_eq_error_iff.1 h with hview | ⟨⟨⟩, -, hret⟩
      · exact .inl (broken_of_view hview)
      · cases hret
    · next hq =>
      cases h
      refine .inr ⟨cause, t :: ts, ⟨rfl, rfl, fun u hu => ?_⟩, hv, rfl⟩
      rw [← Option.some.inj hu]
      exact Bool.eq_false_iff.2 hq

/-- A modifier behind its slash. -/
theorem modifier_error {slash : Token} {ts : List Token} (hs : slash.kind = .slash)
    (h : modifier e ts = .error fault) : e.Explains fault (RefusesModifiers (slash :: ts)) := by
  rcases bind_eq_error_iff.1 h with hview | ⟨⟨⟩, hv, hname⟩
  · exact .inl (broken_of_view hview)
  rcases bind_eq_error_iff.1 hname with hexpect | ⟨⟨name, us⟩, hn, hnamed⟩
  · refine (expect_error hv hexpect).imp fun cause place => ?_
    rintro ⟨rfl, rfl, hbad⟩
    refine .name hs fun t ht hgood => ?_
    have := hbad t ht
    simp [hgood.1, hgood.2] at this
  obtain ⟨hts, hq, hv'⟩ := expect_inv hn
  subst hts
  rw [Bool.and_eq_true, Bool.not_eq_true', String.isEmpty_eq_false_iff] at hq
  cases us with
  | nil => cases hnamed
  | cons comparator us =>
    dsimp only [namedModifier] at hnamed
    split at hnamed
    · next hc =>
      rcases bind_eq_error_iff.1 hnamed with hview | ⟨⟨⟩, hview, hword⟩
      · exact .inl (broken_of_view hview)
      rcases bind_eq_error_iff.1 hword with hexpect | ⟨_, -, hret⟩
      · refine (expect_error hview hexpect).imp fun cause place => ?_
        rintro ⟨rfl, rfl, hbad⟩
        exact .value hs hq.1 hq.2 hc hbad
      · cases hret
    · cases hnamed

theorem refuses_of_modifiers {ts : List Token} (h : modifiers e ts = .error fault) :
    e.Explains fault (RefusesModifiers ts) := by
  fun_induction modifiers e ts with
  | case1 => cases h
  | case2 slash ts hs fault' hm =>
    cases h
    exact modifier_error hs hm
  | case3 slash ts hs m left hm _ ih =>
    cases hmore : modifiers e left with
    | ok more => rw [hmore] at h; cases h
    | error fault' =>
      rw [hmore] at h
      cases h
      obtain ⟨name, us, rfl, hw, hne, hus, hn⟩ := modifier_inv hm
      obtain ⟨-, hcases⟩ := namedModifier_inv hus hn
      refine (ih hmore).imp fun cause place hrefuses => ?_
      rcases hcases with ⟨-, rfl, hstop⟩ | ⟨comparator, value, rfl, hc, hvalue, -⟩
      · exact .flag hs hw hne hstop hrefuses
      · exact .comparison hs hw hne hc hvalue hrefuses
  | case4 => cases h

theorem identifier_error {c : Bool} {first : Token} {rest : List Token}
    (h : identifier e c first rest = .error fault) : e = .broken fault := by
  unfold identifier at h
  split at h
  · cases h
  · rcases bind_eq_error_iff.1 h with hview | ⟨⟨⟩, -, hret⟩
    · exact broken_of_view hview
    · cases hret

theorem refuses_of_declaration {ts : List Token} (hv : e.view ts = .ok ())
    (h : declaration e ts = .error fault) :
    e.Explains fault fun cause place => cause = .expectedWord ∧ RefusesDeclaration ts place := by
  rcases bind_eq_error_iff.1 h with hexpect | ⟨⟨first, left⟩, hf, hmore⟩
  · refine (expect_error hv hexpect).imp fun cause place => ?_
    rintro ⟨rfl, rfl, hbad⟩
    exact ⟨rfl, .first hbad⟩
  obtain ⟨hts, hw, -⟩ := expect_inv hf
  subst hts
  cases left with
  | nil => cases hmore
  | cons sign more =>
    change (if sign.isComparator "=" = true then _ else _) = _ at hmore
    split at hmore
    · next hsign =>
      rcases bind_eq_error_iff.1 hmore with hview | ⟨⟨⟩, hview, hword⟩
      · exact .inl (broken_of_view hview)
      rcases bind_eq_error_iff.1 hword with hexpect | ⟨⟨start, left⟩, -, hident⟩
      · refine (expect_error hview hexpect).imp fun cause place => ?_
        rintro ⟨rfl, rfl, hbad⟩
        exact ⟨rfl, .identifier hw hsign hbad⟩
      rcases bind_eq_error_iff.1 hident with hid | ⟨_, -, hret⟩
      · exact .inl (identifier_error hid)
      · cases hret
    · rcases bind_eq_error_iff.1 hmore with hid | ⟨_, -, hret⟩
      · exact .inl (identifier_error hid)
      · cases hret

variable {n : Nat} {scope : Scope}

theorem refuses_of_chain {cl : Registry → List Token → Except Fault Parsed} {r : Registry}
    (hcl : ∀ r ts q, cl r ts = .ok q → Understands e n .clause scope r ts q)
    (hclause : ∀ r ts, e.view ts = .ok () → cl r ts = .error fault →
      e.Explains fault (Refuses n .clause scope r ts))
    {left : Meaning} {ts : List Token} (hn : left.nesting ≤ n)
    (h : chain e cl (left.parsed r ts) = .error fault) :
    e.Explains fault (Refuses n (.chain left) scope r ts) := by
  generalize hl : left.parsed r ts = start at h
  fun_induction chain e cl start generalizing left ts with
  | case1 => cases h
  | case2 start t rest hrest hkeyword ih =>
    subst hl
    obtain rfl : ts = t :: rest := hrest
    obtain ⟨op, hop⟩ := Option.isSome_iff_exists.1 hkeyword
    rcases bind_eq_error_iff.1 h with hview | ⟨⟨⟩, hview, hoperator⟩
    · exact .inl (broken_of_view hview)
    rcases bind_eq_error_iff.1 hoperator with hfault | ⟨op', hop', hmods⟩
    · rw [operator_eq hop] at hfault
      cases hfault
    obtain rfl := Except.ok.inj ((operator_eq hop).symm.trans hop')
    rcases bind_eq_error_iff.1 hmods with hms | ⟨⟨ms, mid⟩, hms, hread⟩
    · exact (refuses_of_modifiers hms).imp fun _ _ => .operator hop
    obtain ⟨hmodifiers, hmid⟩ := isModifiers_of_modifiers hview hms
    rcases bind_eq_error_iff.1 hread with hright | ⟨right, hright, hif⟩
    · exact (hclause _ _ hmid hright).imp fun _ _ => .operand hop hmodifiers
    obtain ⟨m, after, hm, rfl, hmn, hmh, hafter⟩ := hcl _ _ _ hright
    change (if _h : maxHeight < (left.joined op ms m).node.height then _ else _) = _ at hif
    split at hif
    · next hhigh =>
      cases hif
      exact .inr ⟨_, t :: rest, .height hop hmodifiers hm ⟨hmn, hmh⟩ hhigh, view_cons _ _, rfl⟩
    · next hfits =>
      have hnext : e.Explains fault (Refuses n (.chain (left.joined op ms m)) scope r after) := by
        refine ih op ms (m.parsed (r.registerAll left.declared) after) hfits
          (Nat.max_le.2 ⟨hn, hmn⟩) ?_ hif
        simp only [Meaning.parsed, Meaning.joined, Node.height, Registry.registerAll_append]
      exact hnext.imp fun _ _ =>
        .chain hop hmodifiers hm ⟨Nat.max_le.2 ⟨hn, hmn⟩, Nat.not_lt.1 hfits⟩
  | case3 => cases h

theorem refuses_of_query {cl : Registry → List Token → Except Fault Parsed} {r : Registry}
    {ts : List Token} (hcl : ∀ r ts q, cl r ts = .ok q → Understands e n .clause scope r ts q)
    (hclause : ∀ r ts, e.view ts = .ok () → cl r ts = .error fault →
      e.Explains fault (Refuses n .clause scope r ts))
    (hv : e.view ts = .ok ()) (h : query e cl r ts = .error fault) :
    e.Explains fault (Refuses n .query scope r ts) := by
  rcases bind_eq_error_iff.1 h with hfirst | ⟨first, hfirst, hchain⟩
  · exact (hclause _ _ hv hfirst).imp fun _ _ => .first
  · obtain ⟨m, mid, hm, rfl, hmn, hmh, -⟩ := hcl _ _ _ hfirst
    exact (refuses_of_chain hcl hclause hmn hchain).imp fun _ _ => .further hm ⟨hmn, hmh⟩

section Clause
variable {r : Registry} {t : Token} {rest : List Token}

theorem refuses_of_group (ht : t.kind = .openParen)
    (hquery : query e (clause e n scope) r rest = .error fault →
      e.Explains fault (Refuses n .query scope r rest))
    (h : (query e (clause e n scope) r rest).bind (Parsed.close e) = .error fault) :
    e.Explains fault (Refuses (n + 1) .clause scope r (t :: rest)) := by
  rcases bind_eq_error_iff.1 h with hread | ⟨inner, hread, hclose⟩
  · exact (hquery hread).imp fun _ _ => .group ht
  · obtain ⟨m, mid, hm, rfl, hmn, hmh, hmid⟩ :=
      understands_query (fun _ _ _ => understands_clause) hread
    rcases bind_eq_error_iff.1 hclose with hexpect | ⟨_, -, hret⟩
    · refine (expect_error hmid hexpect).imp fun cause place => ?_
      rintro ⟨rfl, rfl, hopen⟩
      exact .unclosed ht hm ⟨hmn, hmh⟩ fun u hu => beq_eq_false_iff_ne.1 (hopen u hu)
    · cases hret

theorem refuses_of_scoped {u : Token} (ht : t.isWord = true) (hu : u.isRelation = true)
    (hclause : ∀ scope ts, e.view ts = .ok () → clause e n scope r ts = .error fault →
      e.Explains fault (Refuses n .clause scope r ts))
    (hv : e.view rest = .ok ())
    (h : (modifiers e rest).bind (fun (ms, left) => clause e n ⟨t.lower, u.lower, ms⟩ r left) =
      .error fault) :
    e.Explains fault (Refuses (n + 1) .clause scope r (t :: u :: rest)) := by
  rcases bind_eq_error_iff.1 h with hms | ⟨⟨ms, left⟩, hms, hread⟩
  · exact (refuses_of_modifiers hms).imp fun _ _ => .relation ht hu
  · obtain ⟨hmodifiers, hleft⟩ := isModifiers_of_modifiers hv hms
    exact (hclause _ _ hleft hread).imp fun _ _ => .indexed ht hu hmodifiers

theorem refuses_of_declared (ht : t.isComparator ">" = true)
    (hquery : ∀ r ts, e.view ts = .ok () → query e (clause e n scope) r ts = .error fault →
      e.Explains fault (Refuses n .query scope r ts))
    (hv : e.view rest = .ok ())
    (h : (declaration e rest).bind
      (fun (d, left) => query e (clause e n scope) (r.register d.1 d.2) left) = .error fault) :
    e.Explains fault (Refuses (n + 1) .clause scope r (t :: rest)) := by
  rcases bind_eq_error_iff.1 h with hd | ⟨⟨d, left⟩, hd, hread⟩
  · refine (refuses_of_declaration hv hd).imp fun cause place => ?_
    rintro ⟨rfl, hrefuses⟩
    exact .declaration ht hrefuses
  · obtain ⟨hdeclaration, hleft⟩ := isDeclaration_of_declaration hd
    exact (hquery _ _ hleft hread).imp fun _ _ => .declared ht hdeclaration

end Clause

/-- Whatever the reader refuses, it refuses for a cause of the relation. -/
theorem refuses_of_clause {r : Registry} {ts : List Token} (hv : e.view ts = .ok ())
    (h : clause e n scope r ts = .error fault) :
    e.Explains fault (Refuses n .clause scope r ts) := by
  induction n generalizing scope r ts with
  | zero =>
    have hfault : fault = e.faultAt ts .nestedTooDeeply := by
      cases ts <;> exact (Except.error.inj h).symm
    exact .inr ⟨_, ts, .nesting, hv, hfault⟩
  | succ n ih =>
    cases ts with
    | nil =>
      cases h
      exact .inr ⟨_, [], .endOfText, hv, rfl⟩
    | cons t rest =>
      have hquery (r : Registry) (ts : List Token) (hv : e.view ts = .ok ())
          (hq : query e (clause e n scope) r ts = .error fault) :
          e.Explains fault (Refuses n .query scope r ts) :=
        refuses_of_query (fun _ _ _ => understands_clause) (fun _ _ => ih) hv hq
      unfold clause at h
      split at h
      · next ht =>
        rcases bind_eq_error_iff.1 h with hview | ⟨⟨⟩, hview, hinner⟩
        · exact .inl (broken_of_view hview)
        · exact refuses_of_group ht (hquery r rest hview) hinner
      · next hgroup =>
        split at h
        · next hw =>
          rcases bind_eq_error_iff.1 h with hview | ⟨⟨⟩, -, hmore⟩
          · exact .inl (broken_of_view hview)
          · split at hmore
            · next relation more =>
              split at hmore
              · next hr =>
                rcases bind_eq_error_iff.1 hmore with hview | ⟨⟨⟩, hview, hscoped⟩
                · exact .inl (broken_of_view hview)
                · exact refuses_of_scoped hw hr (fun _ _ => ih) hview hscoped
              · cases hmore
            · cases hmore
        · next hword =>
          split at h
          · next hm =>
            rcases bind_eq_error_iff.1 h with hview | ⟨⟨⟩, hview, hdeclared⟩
            · exact .inl (broken_of_view hview)
            · exact refuses_of_declared hm hquery hview hdeclared
          · next hmark =>
            cases h
            exact .inr ⟨_, t :: rest, .start hgroup (Bool.eq_false_iff.2 hword)
              (Bool.eq_false_iff.2 hmark), view_cons _ _, rfl⟩

end Soundness

section Completeness
variable {e : Ending}

theorem expect_refused {cause : Cause} {q : Token → Bool} {ts : List Token}
    (h : ∀ t ∈ ts.head?, q t = false) : expect e cause q ts = .error (e.faultAt ts cause) := by
  cases ts with
  | nil => rfl
  | cons t ts => exact if_neg (Bool.eq_false_iff.1 (h t rfl))

theorem modifiers_slash_error {slash : Token} {ts : List Token} {fault : Fault}
    (hs : slash.kind = .slash) (hm : modifier e ts = .error fault) :
    modifiers e (slash :: ts) = .error fault := by
  rw [modifiers, if_pos hs]
  split
  · next h => rw [hm] at h; cases h; rfl
  · next h => rw [hm] at h; cases h

theorem modifiers_of_refuses {ts place : List Token} {cause : Cause}
    (h : RefusesModifiers ts cause place) (hv : e.view place = .ok ()) :
    modifiers e ts = .error (e.faultAt place cause) := by
  induction h with
  | @name slash ts mark nameless =>
    apply modifiers_slash_error mark
    have hname : ∀ t ∈ ts.head?, (t.isWord && !t.value.isEmpty) = false := fun t ht => by
      simpa using nameless t ht
    have hexpect : expect e .invalidModifier (fun t => t.isWord && !t.value.isEmpty) ts =
        .error (e.faultAt ts .invalidModifier) := expect_refused hname
    rw [modifier, hv, hexpect]
    rfl
  | @value slash name comparator ts mark word named relation missing =>
    apply modifiers_slash_error mark
    rw [modifier_eq word named (view_cons _ _), namedModifier, if_pos relation, hv, Cql.word,
      expect_refused missing]
    rfl
  | @flag slash name ts place cause mark word named stop more ih =>
    have hview := view_of_suffix more.suffix hv
    have hm := (modifier_eq word named hview).trans (namedModifier_flag name stop)
    rw [modifiers_slash mark hm, ih hv]
    rfl
  | @comparison slash name comparator value ts place cause mark word named relation operand more
      ih =>
    have hview := view_of_suffix more.suffix hv
    have hm := (modifier_eq word named (view_cons _ _)).trans
      (namedModifier_comparator name relation operand hview)
    rw [modifiers_slash mark hm, ih hv]
    rfl

theorem declaration_of_refuses {ts place : List Token} (h : RefusesDeclaration ts place)
    (hv : e.view place = .ok ()) : declaration e ts = .error (e.faultAt place .expectedWord) := by
  cases h with
  | first missing =>
    rw [declaration, word, expect_refused missing]
    rfl
  | identifier hword equals missing =>
    rw [declaration, word, expect_cons hword (view_cons _ _)]
    change (if _ then _ else _) = _
    rw [if_pos equals, hv, word, expect_refused missing]
    rfl

def Fails (e : Ending) (n : Nat) (fault : Fault) :
    Phrase → Scope → Registry → List Token → Prop
  | .query, scope, r, ts => query e (clause e n scope) r ts = .error fault
  | .clause, scope, r, ts => clause e n scope r ts = .error fault
  | .chain left, scope, r, ts => chain e (clause e n scope) (left.parsed r ts) = .error fault

/-- The reader fails where the relation says. That a tree is too high shows only behind the operand,
where a literal without an end might be. -/
theorem fails_of_refuses {n : Nat} {phrase : Phrase} {scope : Scope} {r : Registry}
    {ts place : List Token} {cause : Cause} (h : Refuses n phrase scope r ts cause place)
    (hv : e.view place = .ok ()) (hdeep : cause = .nestedTooDeeply → ∃ p, e = .complete p) :
    Fails e n (e.faultAt place cause) phrase scope r ts := by
  induction h with
  | first _ ih =>
    change (clause _ _ _ _ _).bind _ = _
    rw [ih hv hdeep]
    rfl
  | further hclause fits hchain ih =>
    change (clause _ _ _ _ _).bind _ = _
    rw [accepts_of_derives hclause (view_of_suffix hchain.suffix hv) _ fits.nesting fits.height]
    exact ih hv hdeep
  | operator keyword modifiers =>
    change chain _ _ _ = _
    rw [chain_keyword rfl keyword (view_of_suffix modifiers.suffix hv),
      modifiers_of_refuses modifiers hv]
    rfl
  | operand keyword modifiers operand ih =>
    have hmid := view_of_suffix operand.suffix hv
    exact chain_error rfl keyword (view_of_suffix modifiers.suffix hmid)
      (modifiers_of_isModifiers modifiers hmid) (ih hv hdeep)
  | @height n scope r t ts mid after left right op ms keyword modifiers operand fits high =>
    obtain ⟨p, rfl⟩ := hdeep rfl
    change chain _ _ _ = _
    rw [chain_keyword rfl keyword (view_complete _),
      modifiers_of_isModifiers modifiers (view_complete _)]
    change (clause _ _ _ (r.registerAll left.declared) _).bind _ = _
    rw [accepts_of_derives operand (view_complete _) _ fits.nesting fits.height]
    exact if_pos high
  | @chain n scope r t ts mid after place cause left right op ms keyword modifiers operand fits
      hchain ih =>
    have hafter := view_of_suffix hchain.suffix hv
    have hmid := view_of_suffix operand.suffix hafter
    have hnesting : max left.nesting right.nesting ≤ n := fits.nesting
    have hheight : 1 + max left.node.height right.node.height ≤ maxHeight := fits.height
    have hnext := ih hv hdeep
    rw [Fails, Meaning.parsed, Meaning.joined, ← Registry.registerAll_append] at hnext
    change chain _ _ _ = _
    rw [chain_step rfl keyword (view_of_suffix modifiers.suffix hmid)
      (modifiers_of_isModifiers modifiers hmid)
      (accepts_of_derives operand hafter n (by omega) (by omega)) hheight]
    exact hnext
  | @nesting _ _ ts => cases ts <;> rfl
  | endOfText => rfl
  | @start n scope r t ts noGroup noWord noMark =>
    change clause e (n + 1) scope r (t :: ts) = _
    simp only [clause, noGroup, noWord, noMark, ↓reduceIte, Bool.false_eq_true]
  | group opens hquery ih =>
    change clause _ _ _ _ _ = _
    rw [clause_group opens (view_of_suffix hquery.suffix hv), ih hv hdeep]
    rfl
  | @unclosed n scope r opening ts rest m opens hquery fits unclosed =>
    change clause _ _ _ _ _ = _
    rw [clause_group opens (view_of_suffix hquery.suffix hv),
      accepts_of_derives hquery hv _ fits.nesting fits.height]
    change (expect _ _ _ rest).bind _ = _
    rw [expect_refused fun t ht => beq_eq_false_iff_ne.2 (unclosed t ht)]
    rfl
  | relation word isRelation modifiers =>
    change clause _ _ _ _ _ = _
    rw [clause_scoped word isRelation (view_of_suffix modifiers.suffix hv),
      modifiers_of_refuses modifiers hv]
    rfl
  | indexed word isRelation modifiers hclause ih =>
    have hmid := view_of_suffix hclause.suffix hv
    change clause _ _ _ _ _ = _
    rw [clause_scoped word isRelation (view_of_suffix modifiers.suffix hmid),
      modifiers_of_isModifiers modifiers hmid]
    exact ih hv hdeep
  | declaration mark declaration =>
    change clause _ _ _ _ _ = _
    rw [clause_declaration mark (view_of_suffix declaration.suffix hv),
      declaration_of_refuses declaration hv]
    rfl
  | declared mark declaration hquery ih =>
    have hmid := view_of_suffix hquery.suffix hv
    change clause _ _ _ _ _ = _
    rw [clause_declaration mark (view_of_suffix declaration.suffix hmid),
      declaration_of_isDeclaration declaration hmid]
    exact ih hv hdeep

end Completeness

section Text
variable {choice : ServerChoice} {text : String}

theorem explains_of_read {fault : Fault} (hb : Text.isBlankText text = false)
    (h : read choice text = .error fault) :
    (Scan.ofText text).ending.Explains fault
      (RefusesText (.ofChoice choice) (Scan.ofText text).tokens) := by
  rw [read_eq hb] at h
  rcases bind_eq_error_iff.1 h with hview | ⟨⟨⟩, hview, hquery⟩
  · exact .inl (broken_of_view hview)
  rcases bind_eq_error_iff.1 hquery with hread | ⟨parsed, hread, hfinish⟩
  · exact (refuses_of_query (fun _ _ _ => understands_clause) (fun _ _ => refuses_of_clause)
      hview hread).imp fun _ _ => .query
  · obtain ⟨m, rest, hm, rfl, hn, hh, -⟩ :=
      understands_query (fun _ _ _ => understands_clause) hread
    cases rest with
    | nil => cases hfinish
    | cons t rest =>
      cases hfinish
      exact .inr ⟨_, t :: rest, .rest hm ⟨hn, hh⟩, view_cons _ _, rfl⟩

theorem read_of_refusesText {ts place : List Token} {e : Ending} {cause : Cause}
    (hb : Text.isBlankText text = false) (hscan : Scan.ofText text = ⟨ts, e⟩)
    (h : RefusesText (.ofChoice choice) ts cause place) (hv : e.view place = .ok ())
    (hdeep : cause = .nestedTooDeeply → ∃ p, e = .complete p) :
    read choice text = .error (e.faultAt place cause) := by
  rw [read_eq hb, hscan]
  change (e.view ts).bind _ = _
  rw [view_of_suffix h.suffix hv]
  change (query _ _ _ ts).bind _ = _
  cases h with
  | query hquery =>
    rw [fails_of_refuses hquery hv hdeep]
    rfl
  | rest hquery fits =>
    rw [accepts_of_derives hquery hv _ fits.nesting fits.height]
    rfl

end Text

end ContextQuery.Cql
