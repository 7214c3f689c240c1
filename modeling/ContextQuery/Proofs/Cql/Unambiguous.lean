import ContextQuery.Proofs.Cql.Written

namespace ContextQuery.Cql

variable {r r' : Registry} {choice choice' : ServerChoice}

/-- Can the token come behind an operand? -/
def EndsOperand (k : Content) : Prop :=
  k.1 = .closeParen ∨ k.1 = .bareword ∧ (BooleanOp.ofKeyword? k.2).isSome = true

/-- A word or a relation never ends an operand. -/
theorem not_endsOperand_relationContent (s : String) : ¬ EndsOperand (relationContent s) := by
  unfold relationContent wordContent EndsOperand
  split
  · simp
  · split
    · next h => simp [(isBare_iff.1 h).2.1]
    · simp

def EndsModifiers (ks : List Content) : Prop := ∀ k ∈ ks.head?, k.1 ≠ .slash ∧ k.1 ≠ .comparator

theorem EndsModifiers.head_append {ks : List Content} (h : EndsModifiers ks) (ms : List Modifier) :
    ∀ k ∈ (ms.flatMap modifierContents ++ ks).head?, k.1 ≠ .comparator := by
  cases ms with
  | nil => exact fun k hk => (h k hk).2
  | cons m ms =>
    intro k hk
    rw [← Option.some.inj hk]
    decide

theorem modifierContents_unambiguous {ms ns : List Modifier} {ks ls : List Content}
    (hks : EndsModifiers ks) (hls : EndsModifiers ls)
    (h : ms.flatMap modifierContents ++ ks = ns.flatMap modifierContents ++ ls) :
    ms.flatMap modifierContents = ns.flatMap modifierContents ∧ ks = ls := by
  induction ms generalizing ns with
  | nil =>
    cases ns with
    | nil => exact ⟨rfl, h⟩
    | cons n ns =>
      obtain rfl : ks = _ := h
      exact absurd rfl (hks _ rfl).1
  | cons m ms ih =>
    cases ns with
    | nil =>
      obtain rfl : _ = ls := h
      exact absurd rfl (hls _ rfl).1
    | cons n ns =>
      simp only [List.flatMap_cons, List.append_assoc] at h ⊢
      have hms := hks.head_append ms
      have hns := hls.head_append ns
      simp only [modifierContents, List.cons_append, List.cons.injEq, true_and] at h ⊢
      obtain ⟨hname, h⟩ := h
      by_cases hm : m.isFlag = true <;> by_cases hn : n.isFlag = true
      · simp only [hm, hn, ↓reduceIte, List.nil_append] at h ⊢
        obtain ⟨hmore, hrest⟩ := ih h
        exact ⟨⟨hname, hmore⟩, hrest⟩
      · -- A flag is told from a comparison by the token behind its name.
        simp only [hm, hn, ↓reduceIte, List.nil_append, Bool.false_eq_true] at h
        rw [h] at hms
        exact absurd rfl (hms _ rfl)
      · simp only [hm, hn, ↓reduceIte, List.nil_append, Bool.false_eq_true] at h
        rw [← h] at hns
        exact absurd rfl (hns _ rfl)
      · simp only [hm, hn, ↓reduceIte, List.cons_append, List.nil_append, List.cons.injEq,
          Bool.false_eq_true] at h ⊢
        obtain ⟨hcomparator, hvalue, h⟩ := h
        obtain ⟨hmore, hrest⟩ := ih h
        exact ⟨⟨hname, hcomparator, hvalue, hmore⟩, hrest⟩

theorem clauseContents_unambiguous {c d : Clause} {ks ls : List Content}
    (hks : ∀ k ∈ ks.head?, EndsOperand k) (hls : ∀ k ∈ ls.head?, EndsOperand k)
    (h : clauseContents r choice c ++ ks = clauseContents r' choice' d ++ ls) :
    clauseContents r choice c = clauseContents r' choice' d ∧ ks = ls := by
  have hterm (s : String) (ks : List Content) : EndsModifiers ((.quoted, s) :: ks) := by
    intro k hk
    rw [← Option.some.inj hk]
    exact ⟨by simp, by simp⟩
  unfold clauseContents headContents at h ⊢
  by_cases hc : isImplied r choice c = true <;> by_cases hd : isImplied r' choice' d = true
  · rw [if_pos hc, if_pos hd] at h ⊢
    simpa using h
  · -- What comes behind a term alone is no relation.
    rw [if_pos hc, if_neg hd] at h
    obtain rfl : ks = _ := (List.cons.inj h).2
    exact absurd (hks _ rfl) (not_endsOperand_relationContent _)
  · rw [if_neg hc, if_pos hd] at h
    obtain rfl : _ = ls := (List.cons.inj h).2
    exact absurd (hls _ rfl) (not_endsOperand_relationContent _)
  · rw [if_neg hc, if_neg hd] at h ⊢
    simp only [List.cons_append, List.append_assoc, List.nil_append, List.cons.injEq] at h ⊢
    obtain ⟨hfield, hrelation, h⟩ := h
    obtain ⟨hmodifiers, h⟩ := modifierContents_unambiguous (hterm _ _) (hterm _ _) h
    obtain ⟨hquoted, hrest⟩ := List.cons.inj h
    exact ⟨⟨hfield, hrelation, by rw [hmodifiers, hquoted]⟩, hrest⟩

def SameContents (r : Registry) (choice : ServerChoice) (r' : Registry) (choice' : ServerChoice) :
    Node → Node → Prop :=
  Node.Alike (fun c d => clauseContents r choice c = clauseContents r' choice' d)
    fun ms ns => ms.flatMap modifierContents = ns.flatMap modifierContents

/-- A clause begins with no parenthesis. -/
theorem clauseContents_append_ne (c : Clause) (ks ls : List Content) :
    clauseContents r choice c ++ ks ≠ (.openParen, "(") :: ls := by
  intro h
  unfold clauseContents headContents at h
  split at h
  · exact absurd (congrArg Prod.fst (List.cons.inj h).1) (by simp)
  · have hkind : (wordContent (r.qualify c.field)).1 = .openParen :=
      congrArg Prod.fst (List.cons.inj h).1
    unfold wordContent at hkind
    split at hkind <;> cases hkind

theorem endsOperand_keyword (op : BooleanOp) : EndsOperand (.bareword, op.keyword) := by
  refine .inr ⟨rfl, ?_⟩
  cases op <;> decide

/-- Is the operand read off in one way only, up to the token that ends it? -/
def ReadsOff (r : Registry) (choice : ServerChoice) (r' : Registry) (choice' : ServerChoice)
    (n : Node) : Prop :=
  ∀ (n' : Node) (ks ls : List Content), (∀ k ∈ ks.head?, EndsOperand k) →
    (∀ k ∈ ls.head?, EndsOperand k) →
    operandContents r choice n ++ ks = operandContents r' choice' n' ++ ls →
    SameContents r choice r' choice' n n' ∧ ks = ls

theorem boolean_unambiguous {op op' : BooleanOp} {ms ns : List Modifier}
    {left right left' right' : Node} (hleft : ReadsOff r choice r' choice' left)
    (hright : ReadsOff r choice r' choice' right) {ks ls : List Content}
    (hks : ∀ k ∈ ks.head?, EndsOperand k) (hls : ∀ k ∈ ls.head?, EndsOperand k)
    (h : nodeContents r choice (.boolean op ms left right) ++ ks =
      nodeContents r' choice' (.boolean op' ns left' right') ++ ls) :
    SameContents r choice r' choice' (.boolean op ms left right) (.boolean op' ns left' right') ∧
      ks = ls := by
  have hends (op : BooleanOp) (ks : List Content) :
      ∀ k ∈ (((.bareword, op.keyword) : Content) :: ks).head?, EndsOperand k := by
    intro k hk
    rw [← Option.some.inj hk]
    exact endsOperand_keyword op
  have hstops (s : Registry) (choice : ServerChoice) (n : Node) (ks : List Content) :
      EndsModifiers (operandContents s choice n ++ ks) := by
    intro k hk
    obtain ⟨k', ks', hcons⟩ := exists_nodeContents_eq_cons s choice n n.isBoolean
    apply head_operandContents s choice n
    rw [operandContents, hcons] at hk ⊢
    exact hk
  change operandContents r choice left ++ ((.bareword, op.keyword) :: ms.flatMap modifierContents ++
      operandContents r choice right) ++ ks = operandContents r' choice' left' ++
    ((.bareword, op'.keyword) :: ns.flatMap modifierContents ++
      operandContents r' choice' right') ++ ls at h
  simp only [List.append_assoc, List.cons_append] at h
  -- From left to right: the operand up to its keyword, the modifiers up to the other operand.
  obtain ⟨hl, hop⟩ := hleft _ _ _ (hends op _) (hends op' _) h
  obtain ⟨hkeyword, htail⟩ := List.cons.inj hop
  obtain rfl := BooleanOp.keyword_injective (congrArg Prod.snd hkeyword)
  obtain ⟨hms, hoperand⟩ :=
    modifierContents_unambiguous (hstops _ _ _ _) (hstops _ _ _ _) htail
  obtain ⟨hr, hrest⟩ := hright _ _ _ hks hls hoperand
  exact ⟨.boolean hms hl hr, hrest⟩

theorem operand_unambiguous (n : Node) : ReadsOff r choice r' choice' n := by
  induction n with
  | clause c =>
    intro n' ks ls hks hls h
    cases n' with
    | clause d =>
      obtain ⟨hc, h⟩ := clauseContents_unambiguous hks hls h
      exact ⟨.clause hc, h⟩
    | boolean op ns left' right' => exact absurd h (clauseContents_append_ne c _ _)
  | boolean op ms left right ihl ihr =>
    intro n' ks ls hks hls h
    cases n' with
    | clause d => exact absurd h.symm (clauseContents_append_ne d _ _)
    | boolean op' ns left' right' =>
      have hclose (ks : List Content) :
          ∀ k ∈ (((.closeParen, ")") : Content) :: ks).head?, EndsOperand k := by
        intro k hk
        rw [← Option.some.inj hk]
        exact .inl rfl
      simp only [operandContents, parenthesizeContents, Node.isBoolean, ↓reduceIte,
        List.cons_append, List.append_assoc, List.nil_append, List.cons.injEq, true_and] at h
      obtain ⟨hn, h⟩ := boolean_unambiguous ihl ihr (hclose _) (hclose _) h
      exact ⟨hn, (List.cons.inj h).2⟩

/-- No operator comes behind a clause that is all of a tree. -/
theorem nodeContents_clause_ne_boolean {c : Clause} {op : BooleanOp} {ms : List Modifier}
    {left right : Node} :
    nodeContents r choice (.clause c) ≠ nodeContents r' choice' (.boolean op ms left right) := by
  intro h
  have hop : ∀ k ∈ (((.bareword, op.keyword) : Content) :: ms.flatMap modifierContents ++
      operandContents r' choice' right).head?, EndsOperand k := by
    intro k hk
    rw [← Option.some.inj hk]
    exact endsOperand_keyword op
  have hread : SameContents r choice r' choice' (.clause c) left ∧ [] = _ :=
    operand_unambiguous (.clause c) left [] _ nofun hop ((List.append_nil _).trans h)
  cases hread.2

theorem nodeContents_unambiguous {n n' : Node}
    (h : nodeContents r choice n = nodeContents r' choice' n') :
    SameContents r choice r' choice' n n' := by
  cases n with
  | clause c =>
    cases n' with
    | clause d =>
      exact (operand_unambiguous (.clause c) (.clause d) [] [] nofun nofun
        (congrArg (· ++ []) h)).1
    | boolean op' ns left' right' => exact absurd h nodeContents_clause_ne_boolean
  | boolean op ms left right =>
    cases n' with
    | clause d => exact absurd h.symm nodeContents_clause_ne_boolean
    | boolean op' ns left' right' =>
      have hnil : ∀ k ∈ ([] : List Content).head?, EndsOperand k := nofun
      exact (boolean_unambiguous (operand_unambiguous left) (operand_unambiguous right) hnil hnil
        (congrArg (· ++ []) h)).1

def Content.text (k : Content) : String := if k.1 = .quoted then "\"" ++ k.2 ++ "\"" else k.2

theorem writeWord_eq_text (s : String) : writeWord s = Content.text (wordContent s) := by
  unfold writeWord wordContent
  split
  · rfl
  · rfl

theorem writeRelation_eq_text (s : String) :
    writeRelation s = Content.text (relationContent s) := by
  unfold writeRelation relationContent
  split
  · rfl
  · exact writeWord_eq_text s

theorem writeModifiers_eq_text (ms : List Modifier) :
    writeModifiers ms = String.join ((ms.flatMap modifierContents).map Content.text) := by
  have hone (m : Modifier) :
      writeModifier m = String.join ((modifierContents m).map Content.text) := by
    have hslash : Content.text (.slash, "/") = "/" := rfl
    have hrun : Content.text (.comparator, m.relation) = m.relation := rfl
    by_cases hf : m.isFlag = true
    · simp [writeModifier, modifierContents, hf, writeWord_eq_text, hslash]
    · simp [writeModifier, modifierContents, hf, writeWord_eq_text, hslash, hrun,
        String.append_assoc]
  induction ms with
  | nil => rfl
  | cons m ms ih =>
    have hcons : writeModifiers (m :: ms) = writeModifier m ++ writeModifiers ms := by
      simp [writeModifiers]
    rw [hcons, hone, ih]
    simp

theorem writeModifiers_congr {ms ns : List Modifier}
    (h : ms.flatMap modifierContents = ns.flatMap modifierContents) :
    writeModifiers ms = writeModifiers ns := by
  rw [writeModifiers_eq_text, h, writeModifiers_eq_text]

theorem writeClause_congr {c d : Clause}
    (h : clauseContents r choice c = clauseContents r' choice' d) :
    writeClause r choice c = writeClause r' choice' d := by
  unfold clauseContents headContents at h
  unfold writeClause
  by_cases hc : isImplied r choice c = true <;> by_cases hd : isImplied r' choice' d = true
  · rw [if_pos hc, if_pos hd] at h ⊢
    have hterm : escape c.term = escape d.term := by simpa using h
    rw [quote, hterm, quote]
  · rw [if_pos hc, if_neg hd] at h
    simp at h
  · rw [if_neg hc, if_pos hd] at h
    simp at h
  · rw [if_neg hc, if_neg hd] at h ⊢
    simp only [List.cons_append, List.cons.injEq] at h
    obtain ⟨hfield, hrelation, htail⟩ := h
    obtain ⟨hms, hterm⟩ := List.append_inj' htail rfl
    have hterm : escape c.term = escape d.term := by simpa using hterm
    rw [writeWord_eq_text, hfield, writeRelation_eq_text, hrelation, writeModifiers_congr hms,
      quote, hterm, writeWord_eq_text, writeRelation_eq_text, quote]

theorem writeNode_congr {n n' : Node} (h : SameContents r choice r' choice' n n') :
    writeNode r choice n = writeNode r' choice' n' := by
  induction h with
  | clause h => exact writeClause_congr h
  | boolean h hl hr ihl ihr =>
    simp only [writeNode, writeModifiers_congr h, ihl, ihr, hl.isBoolean_eq, hr.isBoolean_eq]

/-- Two queries are written alike if and only if the same parts are read off. -/
theorem write_eq_write_iff {q q' : Query} (hq : q.root.Writable) (hq' : q'.root.Writable) :
    write q = write q' ↔
      SameContents q.registry q.choice q'.registry q'.choice q.root q'.root := by
  constructor
  · intro h
    obtain ⟨ts, p, hscan, hts⟩ := scan_write hq
    obtain ⟨us, p', hscan', hus⟩ := scan_write hq'
    rw [h, hscan'] at hscan
    cases hscan
    exact nodeContents_unambiguous (hts.symm.trans hus)
  · exact writeNode_congr

end ContextQuery.Cql
