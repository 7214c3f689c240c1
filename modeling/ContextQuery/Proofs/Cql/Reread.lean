import ContextQuery.Diagnostic
import ContextQuery.Proofs.Cql.Reading
import ContextQuery.Proofs.Cql.Written

namespace ContextQuery.Cql
open Text

def normalWord (s : String) : String := lowerCase (if isBare s then s else escape s)

def normalRelation (s : String) : String := if isComparatorRun s then s else normalWord s

def normalTerm (s : String) : String := lowerCase (escape s)

def normalModifier (m : Modifier) : Modifier :=
  ⟨normalWord m.name, m.relation, if m.isFlag then "" else normalWord m.value⟩

/-- What a clause is after it has been written and read. Where the writer leaves index and relation
out, the reader puts in the server's choice. -/
def normalClause (r : Registry) (choice : ServerChoice) (c : Clause) : Clause :=
  if isImplied r choice c then
    .resolve .seeded choice.field choice.relation [] (normalTerm c.term)
  else
    .resolve .seeded (normalWord (r.qualify c.field))
      (normalRelation (r.qualifyRelation c.relation)) (c.modifiers.map normalModifier)
      (normalTerm c.term)

def normalNode (r : Registry) (choice : ServerChoice) : Node → Node
  | .clause c => .clause (normalClause r choice c)
  | .boolean op ms left right =>
    .boolean op (ms.map normalModifier) (normalNode r choice left) (normalNode r choice right)

/-- How deep the clauses of a written tree are nested. An index and a relation take one level, and
so do the parentheses around an operand. -/
def writtenNesting (r : Registry) (choice : ServerChoice) : Node → Nat
  | .clause c => if isImplied r choice c then 1 else 2
  | .boolean _ _ left right =>
    max (writtenNesting r choice left + left.isBoolean.toNat)
      (writtenNesting r choice right + right.isBoolean.toNat)

theorem lowerCase_comparatorRun {s : String} (h : isComparatorRun s = true) : lowerCase s = s := by
  apply Lowered.lowerCase_eq
  intro c hc
  have := (isComparatorRun_iff.1 h).2 c hc
  simp only [isComparatorChar, Bool.or_eq_true, beq_iff_eq] at this
  rcases this with (rfl | rfl) | rfl <;> decide

section Content
variable {t : Token} {s : String}

theorem isWord_of_content (h : t.content = wordContent s) : t.isWord = true := by
  rw [Token.isWord_iff, show t.kind = (wordContent s).1 from congrArg Prod.fst h, wordContent]
  split
  · exact .inl rfl
  · exact .inr rfl

theorem lower_of_content (h : t.content = wordContent s) : t.lower = normalWord s := by
  rw [Token.lower, show t.value = (wordContent s).2 from congrArg Prod.snd h, wordContent,
    normalWord]
  split <;> rfl

theorem value_ne_empty_of_content (h : t.content = wordContent s) (hs : s ≠ "") :
    t.value ≠ "" := by
  rw [show t.value = (wordContent s).2 from congrArg Prod.snd h, wordContent]
  split
  · exact hs
  · exact mt escape_eq_empty_iff.1 hs

theorem operator?_of_content (h : t.content = wordContent s) : t.operator? = none := by
  have hk : t.kind = (wordContent s).1 := congrArg Prod.fst h
  have hv : t.value = (wordContent s).2 := congrArg Prod.snd h
  rw [Token.operator?, hk, hv, wordContent]
  split
  · next hb => exact (isBare_iff.1 hb).2.1
  · rfl

theorem isRelation_of_content (h : t.content = relationContent s) : t.isRelation = true := by
  unfold relationContent at h
  split at h
  · have hk : t.kind = .comparator := congrArg Prod.fst h
    simp [Token.isRelation, hk]
  · simp [Token.isRelation, Token.isKeyword, isWord_of_content h, operator?_of_content h]

theorem lower_of_relationContent (h : t.content = relationContent s) :
    t.lower = normalRelation s := by
  unfold relationContent at h
  unfold normalRelation
  split at h
  · next hr =>
    rw [if_pos hr, Token.lower, show t.value = s from congrArg Prod.snd h]
    exact lowerCase_comparatorRun hr
  · next hr =>
    rw [if_neg hr]
    exact lower_of_content h

end Content

variable {p : Position} {r : Registry} {choice : ServerChoice}

/-- One written modifier. -/
theorem modifier_written {m : Modifier} (hm : m.Writable) {ts : List Token}
    (hts : ts.map Token.content = modifierContents m) {rest : List Token}
    (hrest : ∀ t ∈ rest.head?, t.kind ≠ .comparator) :
    ∃ slash us, ts = slash :: us ∧ slash.kind = .slash ∧
      modifier (.complete p) (us ++ rest) = .ok (normalModifier m, rest) := by
  obtain ⟨slash, us, rfl, hslash, hus⟩ := List.map_eq_cons_iff.1 hts
  obtain ⟨name, vs, rfl, hname, hvs⟩ := List.map_eq_cons_iff.1 hus
  refine ⟨slash, name :: vs, rfl, congrArg Prod.fst hslash, ?_⟩
  rw [List.cons_append, modifier_eq (isWord_of_content hname)
    (value_ne_empty_of_content hname hm.1) (view_complete _)]
  by_cases hf : m.isFlag = true
  · rw [if_pos hf, List.map_eq_nil_iff] at hvs
    subst hvs
    have hr : m.relation = "" := by simpa [Modifier.isFlag] using hf
    rw [List.nil_append, namedModifier_flag name hrest, normalModifier, if_pos hf, hr,
      lower_of_content hname]
    rfl
  · rw [if_neg hf] at hvs
    obtain ⟨comparator, ws, rfl, hc, hws⟩ := List.map_eq_cons_iff.1 hvs
    obtain ⟨value, xs, rfl, hv, hxs⟩ := List.map_eq_cons_iff.1 hws
    rw [List.map_eq_nil_iff] at hxs
    subst hxs
    rw [List.cons_append, List.cons_append, List.nil_append,
      namedModifier_comparator name (congrArg Prod.fst hc) (isWord_of_content hv) (view_complete _),
      normalModifier, if_neg hf, lower_of_content hname, lower_of_content hv,
      show comparator.value = m.relation from congrArg Prod.snd hc]

theorem modifiers_written {ms : List Modifier} (h : ∀ m ∈ ms, m.Writable) {ts : List Token}
    (hts : ts.map Token.content = ms.flatMap modifierContents) {rest : List Token}
    (hrest : ∀ t ∈ rest.head?, t.kind ≠ .slash ∧ t.kind ≠ .comparator) :
    modifiers (.complete p) (ts ++ rest) = .ok (ms.map normalModifier, rest) := by
  induction ms generalizing ts with
  | nil =>
    rw [List.flatMap_nil, List.map_eq_nil_iff] at hts
    subst hts
    exact modifiers_stop fun t ht => (hrest t ht).1
  | cons m ms ih =>
    rw [List.flatMap_cons] at hts
    obtain ⟨us, vs, rfl, hus, hvs⟩ := List.map_eq_append_iff.1 hts
    -- A flag would take a comparator behind it for its own.
    have hnext : ∀ t ∈ (vs ++ rest).head?, t.kind ≠ .comparator := by
      intro t ht
      cases ms with
      | nil =>
        rw [List.flatMap_nil, List.map_eq_nil_iff] at hvs
        subst hvs
        exact (hrest t ht).2
      | cons m' ms =>
        obtain ⟨u, ws, rfl, hu, -⟩ := List.map_eq_cons_iff.1 hvs
        rw [← Option.some.inj ht, show u.kind = .slash from congrArg Prod.fst hu]
        decide
    obtain ⟨slash, ws, rfl, hslash, hm⟩ :=
      modifier_written (p := p) (h m List.mem_cons_self) hus hnext
    rw [List.append_assoc, List.cons_append, modifiers_slash hslash hm,
      ih (fun m' hm' => h m' (List.mem_cons_of_mem m hm')) hvs]
    rfl

/-- Reading gives `q` if there is room for `need` clauses within each other, and otherwise fails for
the nesting. -/
structure ReadsWithin (need room : Nat) (x : Except Fault Parsed) (q : Parsed) : Prop where
  ok : need ≤ room → x = .ok q
  deep : room < need → ∃ place, x = .error ⟨.nestedTooDeeply, place⟩

theorem clause_zero (e : Ending) (scope : Scope) (ts : List Token) :
    ∃ place, clause e 0 scope r ts = .error ⟨.nestedTooDeeply, place⟩ := by
  cases ts
  · exact ⟨_, rfl⟩
  · exact ⟨_, rfl⟩

/-- A term alone. -/
theorem term_written {s : String} {scope : Scope} {room : Nat} {t : Token} {rest : List Token}
    (ht : t.content = (.quoted, escape s)) (hrest : ∀ u ∈ rest.head?, u.isRelation = false) :
    ReadsWithin 1 room (clause (.complete p) room scope r (t :: rest))
      ⟨.clause (.resolve r scope.field scope.relation scope.modifiers (normalTerm s)), 1, r,
        rest⟩ := by
  have hw : t.isWord = true := Token.isWord_iff.2 (.inr (congrArg Prod.fst ht))
  have hv : t.value = escape s := congrArg Prod.snd ht
  constructor
  · intro h
    obtain ⟨n, rfl⟩ := Nat.exists_eq_add_of_le' h
    rw [clause_term hw hrest (view_complete _), clause.term, Token.lower, hv]
    rfl
  · intro h
    obtain rfl : room = 0 := by omega
    exact clause_zero _ _ _

theorem clause_written {c : Clause} (hw : ∀ m ∈ c.modifiers, m.Writable) {room : Nat}
    {ts rest : List Token} (hts : ts.map Token.content = clauseContents r choice c)
    (hrest : ∀ t ∈ rest.head?, t.isRelation = false) :
    ReadsWithin (if isImplied r choice c then 1 else 2) room
      (clause (.complete p) room (.ofChoice choice) .seeded (ts ++ rest))
      ⟨.clause (normalClause r choice c), 1, .seeded, rest⟩ := by
  unfold clauseContents headContents at hts
  unfold normalClause
  split at hts
  · next hi =>
    obtain ⟨t, us, rfl, ht, hus⟩ := List.map_eq_cons_iff.1 hts
    rw [List.map_eq_nil_iff] at hus
    subst hus
    rw [if_pos hi, if_pos hi]
    exact term_written ht hrest
  · next hi =>
    rw [if_neg hi, if_neg hi]
    obtain ⟨field, us, rfl, hfield, hus⟩ := List.map_eq_cons_iff.1 hts
    obtain ⟨relation, vs, rfl, hrelation, hvs⟩ := List.map_eq_cons_iff.1 hus
    obtain ⟨ws, xs, rfl, hms, hxs⟩ := List.map_eq_append_iff.1 hvs
    obtain ⟨t, ys, rfl, ht, hys⟩ := List.map_eq_cons_iff.1 hxs
    rw [List.map_eq_nil_iff] at hys
    subst hys
    have hk : t.kind = .quoted := congrArg Prod.fst ht
    -- The term is quoted, so neither a slash nor a comparator stands behind the modifiers.
    have hm : modifiers (.complete p) (ws ++ t :: rest) =
        .ok (c.modifiers.map normalModifier, t :: rest) := by
      apply modifiers_written hw hms
      intro u hu
      rw [← Option.some.inj hu, hk]
      decide
    have hscoped (n : Nat) : clause (.complete p) (n + 1) (.ofChoice choice) .seeded
          (field :: relation :: (ws ++ t :: rest)) =
        clause (.complete p) n ⟨field.lower, relation.lower, c.modifiers.map normalModifier⟩ .seeded
          (t :: rest) := by
      rw [clause_scoped (isWord_of_content hfield) (isRelation_of_content hrelation)
        (view_complete _), hm]
      rfl
    have hshape : field :: relation :: (ws ++ [t]) ++ rest =
        field :: relation :: (ws ++ t :: rest) := by simp
    rw [hshape]
    constructor
    · intro h
      obtain ⟨n, rfl⟩ := Nat.exists_eq_add_of_le' h
      rw [hscoped (n + 1), lower_of_content hfield, lower_of_relationContent hrelation]
      exact (term_written ht hrest).ok (Nat.le_add_left 1 n)
    · intro h
      cases room with
      | zero => exact clause_zero _ _ _
      | succ n =>
        obtain rfl : n = 0 := by omega
        rw [hscoped 0]
        exact clause_zero _ _ _

def operandNesting (r : Registry) (choice : ServerChoice) (n : Node) : Nat :=
  writtenNesting r choice n + n.isBoolean.toNat

theorem height_le_operandNesting (r : Registry) (choice : ServerChoice) (n : Node) :
    n.height ≤ operandNesting r choice n := by
  induction n with
  | clause c =>
    simp only [Node.height, operandNesting, writtenNesting]
    split <;> omega
  | boolean op ms left right ihl ihr =>
    change 1 + max left.height right.height ≤
      max (operandNesting r choice left) (operandNesting r choice right) + 1
    omega

def ReadsOperand (p : Position) (r : Registry) (choice : ServerChoice) (room : Nat) (n : Node) :
    Prop :=
  ∀ ts rest : List Token, ts.map Token.content = operandContents r choice n →
    (∀ t ∈ rest.head?, t.isRelation = false) →
    ReadsWithin (operandNesting r choice n) room
      (clause (.complete p) room (.ofChoice choice) .seeded (ts ++ rest))
      ⟨normalNode r choice n, n.height, .seeded, rest⟩

/-- An operator between two operands. -/
theorem boolean_written {op : BooleanOp} {ms : List Modifier} {left right : Node}
    (hms : ∀ m ∈ ms, m.Writable) {room : Nat} (hroom : room ≤ maxNesting)
    (hl : ReadsOperand p r choice room left) (hr : ReadsOperand p r choice room right)
    {ts rest : List Token}
    (hts : ts.map Token.content = nodeContents r choice (.boolean op ms left right))
    (hrest : ∀ t ∈ rest.head?, t.isRelation = false ∧ t.operator? = none) :
    ReadsWithin (writtenNesting r choice (.boolean op ms left right)) room
      (query (.complete p) (clause (.complete p) room (.ofChoice choice)) .seeded (ts ++ rest))
      ⟨normalNode r choice (.boolean op ms left right), (Node.boolean op ms left right).height,
        .seeded, rest⟩ := by
  obtain ⟨us, vs, rfl, hus, hvs⟩ := List.map_eq_append_iff.1 hts
  obtain ⟨keyword, ws, rfl, hkeyword, hws⟩ := List.map_eq_cons_iff.1 hvs
  obtain ⟨xs, ys, rfl, hxs, hys⟩ := List.map_eq_append_iff.1 hws
  have hop : keyword.operator? = some op := by
    have hk : keyword.kind = .bareword := congrArg Prod.fst hkeyword
    rw [Token.operator?, if_pos hk, show keyword.value = op.keyword from congrArg Prod.snd hkeyword,
      BooleanOp.ofKeyword?_keyword]
  have hshape : us ++ keyword :: (xs ++ ys) ++ rest = us ++ keyword :: (xs ++ (ys ++ rest)) := by
    simp
  have hleft := hl us (keyword :: (xs ++ (ys ++ rest))) hus fun t ht => by
    rw [← Option.some.inj ht]
    exact Token.isRelation_of_operator? hop
  have hright := hr ys rest hys fun t ht => (hrest t ht).1
  have hm : modifiers (.complete p) (xs ++ (ys ++ rest)) =
      .ok (ms.map normalModifier, ys ++ rest) := by
    apply modifiers_written hms hxs
    intro t ht
    obtain ⟨k, ks, hk⟩ := exists_nodeContents_eq_cons r choice right right.isBoolean
    have hhead := head_operandContents r choice right k (by
      rw [operandContents, hk]
      rfl)
    rw [hk] at hys
    obtain ⟨y, zs, rfl, rfl, -⟩ := List.map_eq_cons_iff.1 hys
    rw [← Option.some.inj ht]
    exact hhead
  rw [hshape]
  change ReadsWithin (max (operandNesting r choice left) (operandNesting r choice right)) room
    ((clause _ room _ _ _).bind _) _
  constructor
  · intro h
    rw [hleft.ok (by omega)]
    -- Each level of the tree takes a level of nesting, so the cap on the height is never met.
    have hl := height_le_operandNesting r choice left
    have hr := height_le_operandNesting r choice right
    have hheight : 1 + max left.height right.height ≤ maxHeight := by
      simp only [maxHeight, maxNesting] at hroom ⊢
      omega
    change chain _ _ _ = _
    rw [chain_step rfl hop (view_complete _) hm (hright.ok (by omega)) hheight]
    exact chain_stop fun t ht => (hrest t ht).2
  · -- The operand that does not fit is the one that fails, and the left one is read first.
    intro h
    by_cases hfits : operandNesting r choice left ≤ room
    · obtain ⟨place, hplace⟩ := hright.deep (by omega)
      rw [hleft.ok hfits]
      exact ⟨place, chain_error rfl hop (view_complete _) hm hplace⟩
    · obtain ⟨place, hplace⟩ := hleft.deep (by omega)
      rw [hplace]
      exact ⟨place, rfl⟩

theorem operand_written {n : Node} (hw : n.Writable) {room : Nat} (hroom : room ≤ maxNesting) :
    ReadsOperand p r choice room n := by
  induction n generalizing room with
  | clause c => exact fun ts rest hts hrest => clause_written hw hts hrest
  | boolean op ms left right ihl ihr =>
    intro ts rest hts hrest
    obtain ⟨hms, hwl, hwr⟩ := hw
    obtain ⟨opening, us, rfl, hopening, hus⟩ := List.map_eq_cons_iff.1 hts
    obtain ⟨vs, ws, rfl, hvs, hws⟩ := List.map_eq_append_iff.1 hus
    obtain ⟨closing, xs, rfl, hclosing, hxs⟩ := List.map_eq_cons_iff.1 hws
    rw [List.map_eq_nil_iff] at hxs
    subst hxs
    have hshape : opening :: (vs ++ [closing]) ++ rest = opening :: (vs ++ closing :: rest) := by
      simp
    have hko : opening.kind = .openParen := congrArg Prod.fst hopening
    have hkc : closing.kind = .closeParen := congrArg Prod.fst hclosing
    have hstop : ∀ t ∈ (closing :: rest).head?, t.isRelation = false ∧ t.operator? = none := by
      intro t ht
      rw [← Option.some.inj ht]
      simp [Token.isRelation, Token.isWord, Token.operator?, hkc]
    rw [hshape]
    change ReadsWithin (writtenNesting r choice (.boolean op ms left right) + 1) _ _ _
    cases room with
    | zero => exact ⟨fun h => absurd h (by omega), fun _ => clause_zero _ _ _⟩
    | succ n =>
      have hn := Nat.le_of_succ_le hroom
      have hinner := boolean_written hms hn (ihl hwl hn) (ihr hwr hn) hvs hstop
      rw [clause_group hko (view_complete _)]
      constructor
      · intro h
        rw [hinner.ok (Nat.le_of_succ_le_succ h)]
        exact close_eq rfl hkc (view_complete _)
      · intro h
        obtain ⟨place, hplace⟩ := hinner.deep (Nat.lt_of_succ_lt_succ h)
        rw [hplace]
        exact ⟨place, rfl⟩

/-- The whole text of a written query. -/
theorem query_written {n : Node} (hw : n.Writable) {ts : List Token}
    (hts : ts.map Token.content = nodeContents r choice n) :
    ReadsWithin (writtenNesting r choice n) maxNesting
      (query (.complete p) (clause (.complete p) maxNesting (.ofChoice choice)) .seeded ts)
      ⟨normalNode r choice n, n.height, .seeded, []⟩ := by
  have hnil : ∀ t ∈ ([] : List Token).head?, t.isRelation = false ∧ t.operator? = none :=
    fun _ h => nomatch h
  rw [← List.append_nil ts]
  cases n with
  | clause c =>
    have hc : ReadsWithin (if isImplied r choice c then 1 else 2) maxNesting
        (clause (.complete p) maxNesting (.ofChoice choice) .seeded (ts ++ []))
        ⟨.clause (normalClause r choice c), 1, .seeded, []⟩ :=
      clause_written hw hts fun t ht => (hnil t ht).1
    constructor
    · intro h
      change (clause _ _ _ _ _).bind _ = _
      rw [hc.ok h]
      exact chain_stop fun t ht => (hnil t ht).2
    · intro h
      obtain ⟨place, hplace⟩ := hc.deep h
      change ∃ place, (clause _ _ _ _ _).bind _ = _
      rw [hplace]
      exact ⟨place, rfl⟩
  | boolean op ms left right =>
    exact boolean_written hw.1 (Nat.le_refl _) (operand_written hw.2.1 (Nat.le_refl _))
      (operand_written hw.2.2 (Nat.le_refl _)) hts hnil

theorem quote_mem_writeNode (n : Node) : '"' ∈ (writeNode r choice n).toList := by
  induction n with
  | clause c => simp [writeNode, writeClause, quote]
  | boolean op ms left right ihl ihr =>
    cases hb : left.isBoolean <;> simp [writeNode, parenthesize, hb, ihl]

theorem isBlankText_write (q : Query) : isBlankText (write q) = false :=
  isBlankText_of_mem (quote_mem_writeNode q.root) (by decide)

theorem read_write_eq {q : Query} (h : q.root.Writable) :
    ∃ parsed : Except Fault Parsed,
      ReadsWithin (writtenNesting q.registry q.choice q.root) maxNesting parsed
        ⟨normalNode q.registry q.choice q.root, q.root.height, .seeded, []⟩ ∧
      ∃ p, read q.choice (write q) = parsed.bind (finish (.complete p) q.choice (write q)) := by
  obtain ⟨ts, p, hscan, hts⟩ := scan_write h
  exact ⟨_, query_written (p := p) h hts, p, by
    rw [read_eq (isBlankText_write q), hscan, view_complete]
    rfl⟩

theorem read_write_of_fits {q : Query} (h : q.root.Writable)
    (hn : writtenNesting q.registry q.choice q.root ≤ maxNesting) :
    read q.choice (write q) =
      .ok ⟨some (write q), normalNode q.registry q.choice q.root, .seeded, q.choice⟩ := by
  obtain ⟨parsed, hp, p, hread⟩ := read_write_eq h
  rw [hread, hp.ok hn]
  rfl

theorem read_write_of_deep {q : Query} (h : q.root.Writable)
    (hn : maxNesting < writtenNesting q.registry q.choice q.root) :
    ∃ place, read q.choice (write q) = .error ⟨.nestedTooDeeply, place⟩ := by
  obtain ⟨parsed, hp, p, hread⟩ := read_write_eq h
  obtain ⟨place, hplace⟩ := hp.deep hn
  rw [hread, hplace]
  exact ⟨place, rfl⟩

/-- Any tree that can be written is read back as its normal form or refused for its nesting. -/
theorem read_write {q : Query} (h : q.root.Writable) :
    (writtenNesting q.registry q.choice q.root ≤ maxNesting →
      read q.choice (write q) =
        .ok ⟨some (write q), normalNode q.registry q.choice q.root, .seeded, q.choice⟩) ∧
    (maxNesting < writtenNesting q.registry q.choice q.root →
      ∃ place, read q.choice (write q) = .error ⟨.nestedTooDeeply, place⟩ ∧
        Fault.diagnostic ⟨.nestedTooDeeply, place⟩ =
          .syntaxError "Query is nested too deeply" place) := by
  refine ⟨read_write_of_fits h, fun hn => ?_⟩
  obtain ⟨place, hplace⟩ := read_write_of_deep h hn
  exact ⟨place, hplace, rfl⟩

def hostileQuery : Query :=
  ⟨none, .boolean .prox [⟨"a/b", "<>", "\""⟩]
    (.clause ⟨⟨"and", none⟩, ⟨"(=", none⟩, [.flag "OR", ⟨"\\", "==", ""⟩], "\\\"\"\\"⟩)
    (.boolean .not [] (.clause ⟨⟨"scr", none⟩, ⟨"<", none⟩, [], "x) or (y"⟩)
      (.clause ⟨⟨"serverChoice", some "info:srw/cql-context-set/1/cql-v1.2"⟩, ⟨"SCR", none⟩, [],
        ""⟩)),
    .seeded, .standard⟩

theorem read_write_hostileQuery : hostileQuery.root.Writable ∧
    read .standard (write hostileQuery) = .ok ⟨some (write hostileQuery),
      normalNode .seeded .standard hostileQuery.root, .seeded, .standard⟩ := by
  have h : hostileQuery.root.Writable := by
    simp only [hostileQuery, Node.Writable, Node.Each, Modifier.Writable, Modifier.flag]
    decide
  exact ⟨h, (read_write h).1 (by decide +kernel)⟩

end ContextQuery.Cql
