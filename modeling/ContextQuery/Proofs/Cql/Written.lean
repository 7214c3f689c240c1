import ContextQuery.Proofs.Cql.Spelling
import ContextQuery.Proofs.Query.Node

namespace ContextQuery

/-- A modifier that can be written: it has a name, and either neither relation nor value or a
comparator for its relation. -/
def Modifier.Writable (m : Modifier) : Prop :=
  m.name ≠ "" ∧ (m.relation = "" ∧ m.value = "" ∨ Cql.isComparatorRun m.relation = true)

def Node.Writable : Node → Prop :=
  Node.Each (fun c => ∀ m ∈ c.modifiers, m.Writable) fun ms => ∀ m ∈ ms, m.Writable

namespace Cql

def modifierContents (m : Modifier) : List Content :=
  (.slash, "/") :: wordContent m.name ::
    if m.isFlag then [] else [(.comparator, m.relation), wordContent m.value]

def headContents (r : Registry) (choice : ServerChoice) (c : Clause) : List Content :=
  if isImplied r choice c then []
  else wordContent (r.qualify c.field) :: relationContent (r.qualifyRelation c.relation) ::
    c.modifiers.flatMap modifierContents

def clauseContents (r : Registry) (choice : ServerChoice) (c : Clause) : List Content :=
  headContents r choice c ++ [(.quoted, escape c.term)]

def parenthesizeContents (isBoolean : Bool) (ks : List Content) : List Content :=
  if isBoolean then (.openParen, "(") :: ks ++ [(.closeParen, ")")] else ks

def nodeContents (r : Registry) (choice : ServerChoice) : Node → List Content
  | .clause c => clauseContents r choice c
  | .boolean op ms left right =>
    parenthesizeContents left.isBoolean (nodeContents r choice left) ++
      ((.bareword, op.keyword) :: ms.flatMap modifierContents ++
        parenthesizeContents right.isBoolean (nodeContents r choice right))

theorem exists_nodeContents_eq_cons (r : Registry) (choice : ServerChoice) (n : Node) (b : Bool) :
    ∃ k ks, parenthesizeContents b (nodeContents r choice n) = k :: ks := by
  apply List.exists_cons_of_ne_nil
  cases b <;> cases n <;> simp [nodeContents, clauseContents, parenthesizeContents]

def operandContents (r : Registry) (choice : ServerChoice) (n : Node) : List Content :=
  parenthesizeContents n.isBoolean (nodeContents r choice n)

/-- An operand begins with a parenthesis or a word. -/
theorem head_operandContents (r : Registry) (choice : ServerChoice) (n : Node) :
    ∀ k ∈ (operandContents r choice n).head?, k.1 ≠ .slash ∧ k.1 ≠ .comparator := by
  have hword (s : String) : (wordContent s).1 ≠ .slash ∧ (wordContent s).1 ≠ .comparator := by
    unfold wordContent
    split <;> simp
  intro k hk
  cases n with
  | clause c =>
    simp only [operandContents, parenthesizeContents, nodeContents, clauseContents, headContents,
      Node.isBoolean, Bool.false_eq_true, ↓reduceIte] at hk
    split at hk <;> rw [← Option.some.inj hk]
    · exact ⟨by simp, by simp⟩
    · exact hword _
  | boolean op ms left right =>
    rw [← Option.some.inj hk]
    decide

theorem spells_writeModifier {m : Modifier} (h : m.Writable) :
    Spells (writeModifier m).toList (modifierContents m) EndsWord := by
  obtain ⟨-, hm⟩ := h
  have hslash : Spells ['/'] [(.slash, "/")] fun _ => True := .punctuation rfl
  have hname := hslash.append (Spells.word m.name) fun _ _ => trivial
  by_cases hf : m.isFlag = true
  · simpa [writeModifier, modifierContents, hf] using hname
  · have hrun : isComparatorRun m.relation = true := by
      rcases hm with ⟨hr, -⟩ | hr
      · exact absurd (by rw [Modifier.isFlag, hr]; rfl) hf
      · exact hr
    have hvalue := (Spells.comparator hrun).append (Spells.word m.value) fun rest _ =>
      endsRun_writeWord m.value rest
    have hall := hname.append hvalue fun rest _ => by
      rw [List.append_assoc]
      exact endsWord_comparator hrun _
    simpa [writeModifier, modifierContents, hf] using hall

theorem exists_writeModifiers_eq_cons (m : Modifier) (ms : List Modifier) :
    ∃ ds, (writeModifiers (m :: ms)).toList = '/' :: ds := by
  simp [writeModifiers, String.toList_join, writeModifier]

theorem spells_writeModifiers {ms : List Modifier} (h : ∀ m ∈ ms, m.Writable) :
    Spells (writeModifiers ms).toList (ms.flatMap modifierContents) EndsWord := by
  induction ms with
  | nil => exact .nil _
  | cons m ms ih =>
    have hm := spells_writeModifier (h m List.mem_cons_self)
    have hms := ih fun m' hm' => h m' (List.mem_cons_of_mem m hm')
    have hcons : (writeModifiers (m :: ms)).toList =
        (writeModifier m).toList ++ (writeModifiers ms).toList := by
      simp [writeModifiers, String.toList_join]
    rw [hcons, List.flatMap_cons]
    refine hm.append hms fun rest hrest => ?_
    cases ms with
    | nil => exact hrest
    | cons m' ms => simpa [writeModifiers, String.toList_join, writeModifier] using
        endsWord_cons (c := '/') rfl _

theorem spells_writeClause (r : Registry) (choice : ServerChoice) {c : Clause}
    (h : ∀ m ∈ c.modifiers, m.Writable) :
    Spells (writeClause r choice c).toList (clauseContents r choice c) fun _ => True := by
  have hterm := Spells.quote c.term
  by_cases hi : isImplied r choice c = true
  · simpa [writeClause, clauseContents, headContents, hi] using hterm
  · have hmodifiers := (spells_writeModifiers h).append hterm.space fun rest _ =>
      endsWord_cons rfl _
    have hrelation := (Spells.relation (r.qualifyRelation c.relation)).space.append hmodifiers
      fun rest _ => ?_
    · have hfield := (Spells.word (r.qualify c.field)).append hrelation fun rest _ =>
        endsWord_cons rfl _
      simpa [writeClause, clauseContents, headContents, hi] using hfield
    · cases hms : c.modifiers with
      | nil => exact ⟨endsWord_cons rfl _, fun d hd => by cases hd; rfl⟩
      | cons m ms =>
        obtain ⟨ds, hds⟩ := exists_writeModifiers_eq_cons m ms
        rw [hds]
        exact ⟨endsWord_cons rfl _, fun d hd => by cases hd; rfl⟩

theorem spells_parenthesize {s : String} {ks : List Content} (b : Bool)
    (h : Spells s.toList ks fun _ => True) :
    Spells (parenthesize b s).toList (parenthesizeContents b ks) fun _ => True := by
  cases b with
  | false => exact h
  | true =>
    have hopen : Spells ['('] [(.openParen, "(")] fun _ => True := .punctuation rfl
    have hclose : Spells [')'] [(.closeParen, ")")] fun _ => True := .punctuation rfl
    have hall := hopen.append (h.append hclose fun _ _ => trivial) fun _ _ => trivial
    simpa [parenthesize, parenthesizeContents] using hall

theorem spells_keyword (op : BooleanOp) :
    Spells op.keyword.toList [(.bareword, op.keyword)] EndsWord := by
  have hbare : op.keyword.toList.all isBareChar = true := by cases op <;> decide
  apply Spells.bareword
  · cases op <;> decide
  · exact List.all_eq_true.1 hbare

theorem spells_writeNode (r : Registry) (choice : ServerChoice) {n : Node} (h : n.Writable) :
    Spells (writeNode r choice n).toList (nodeContents r choice n) fun _ => True := by
  induction n with
  | clause c => exact spells_writeClause r choice h
  | boolean op ms left right ihl ihr =>
    obtain ⟨hms, hl, hr⟩ := h
    have hleft := spells_parenthesize left.isBoolean (ihl hl)
    have hright := spells_parenthesize right.isBoolean (ihr hr)
    obtain ⟨k, ks, hks⟩ := exists_nodeContents_eq_cons r choice right right.isBoolean
    rw [hks] at hright
    have hmodifiers := (spells_writeModifiers hms).append hright.space fun rest _ =>
      endsWord_cons rfl _
    have hop := (spells_keyword op).append hmodifiers fun rest _ => by
      cases ms with
      | nil => exact endsWord_cons rfl _
      | cons m ms =>
        obtain ⟨ds, hds⟩ := exists_writeModifiers_eq_cons m ms
        rw [hds]
        exact endsWord_cons rfl _
    have hall := hleft.append hop.space fun _ _ => trivial
    simpa [writeNode, nodeContents, hks] using hall

/-- The tokens of a written query, and that its text ends with them. -/
theorem scan_write {q : Query} (h : q.root.Writable) :
    ∃ ts p, Scan.ofText (write q) = ⟨ts, .complete p⟩ ∧
      ts.map Token.content = nodeContents q.registry q.choice q.root := by
  obtain ⟨ts, p, hts, hr⟩ := spells_writeNode q.registry q.choice h [] trivial .start
  refine ⟨ts, p, Reads.scan_ofText ?_, hts⟩
  rwa [List.append_nil] at hr

end Cql

end ContextQuery
