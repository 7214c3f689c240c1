import ContextQuery.Proofs.Cql.Grammar
import ContextQuery.Proofs.Cql.Written
import ContextQuery.Proofs.Query.Registry

namespace ContextQuery
open Text

structure Modifier.IsRead (m : Modifier) : Prop where
  writable : m.Writable
  name : Lowered m.name
  value : Lowered m.value

/-- Can the clause come from a text that declares this? Its prefixes are looked up where some of
that has been declared. -/
inductive Clause.IsRead (choice : ServerChoice) (declared : List (String × String)) : Clause → Prop
  | inherited {ds : List (String × String)} {term : String} (front : ds <+: declared)
    (hterm : Lowered term) : Clause.IsRead choice declared
      (.resolve (Registry.seeded.registerAll ds) choice.field choice.relation [] term)
  | worded {ds : List (String × String)} {field relation term : String} {ms : List Modifier}
    (front : ds <+: declared) (hfield : Lowered field) (hrelation : Lowered relation)
    (hms : ∀ m ∈ ms, m.IsRead) (hterm : Lowered term) : Clause.IsRead choice declared
      (.resolve (Registry.seeded.registerAll ds) field relation ms term)

theorem Clause.IsRead.mono {choice : ServerChoice} {declared more : List (String × String)}
    {c : Clause} (h : c.IsRead choice declared) : c.IsRead choice (declared ++ more) := by
  have hmore := List.prefix_append declared more
  cases h with
  | inherited front hterm => exact .inherited (front.trans hmore) hterm
  | worded front hfield hrelation hms hterm =>
    exact .worded (front.trans hmore) hfield hrelation hms hterm

theorem Clause.IsRead.lowered_term {choice : ServerChoice} {declared : List (String × String)}
    {c : Clause} (h : c.IsRead choice declared) : Lowered c.term := by
  cases h with
  | inherited _ hterm => exact hterm
  | worded _ _ _ _ hterm => exact hterm

def Node.IsRead (choice : ServerChoice) (declared : List (String × String)) : Node → Prop :=
  Node.Each (·.IsRead choice declared) fun ms => ∀ m ∈ ms, m.IsRead

theorem Node.IsRead.mono {choice : ServerChoice} {declared more : List (String × String)} {n : Node}
    (h : n.IsRead choice declared) : n.IsRead choice (declared ++ more) :=
  Each.mono h (fun _ => Clause.IsRead.mono) fun _ => id

theorem Node.IsRead.writable {choice : ServerChoice} {declared : List (String × String)} {n : Node}
    (h : n.IsRead choice declared) : n.Writable := by
  apply Each.mono h
  · intro c hc
    cases hc with
    | inherited => exact fun _ hm => nomatch hm
    | worded _ _ _ hms _ => exact fun m hm => (hms m hm).writable
  · exact fun ms hms m hm => (hms m hm).writable

namespace Cql

def Token.IsScanned (t : Token) : Prop := t.kind = .comparator → isComparatorRun t.value = true

theorem isScanned_of_takes {t : Token} {taken rest : List Char} (h : Takes taken t.content rest) :
    t.IsScanned := by
  intro hk
  generalize hcontent : t.content = k at h
  cases h with
  | punctuation mark =>
    obtain rfl : _ = TokenKind.comparator := (congrArg Prod.fst hcontent).symm.trans hk
    exact absurd (kind_of_punctuation mark) (by decide)
  | @comparator c cs _ run _ =>
    rw [show t.value = String.ofList (c :: cs) from congrArg Prod.snd hcontent,
      isComparatorRun_iff, String.toList_ofList]
    exact ⟨by simp [← String.toList_inj], run⟩
  | literal | word => exact nomatch (congrArg Prod.fst hcontent).symm.trans hk

theorem isScanned_of_reads {s u : Cursor} {ts : List Token} (h : Reads s ts u) :
    ∀ t ∈ ts, t.IsScanned := by
  induction h with
  | nil => exact nofun
  | @cons s u _ t ts hnext inner _ ih =>
    refine List.forall_mem_cons.2 ⟨?_, ih⟩
    rcases cuts_of_next hnext with ⟨gap, taken, hcuts⟩ | ⟨hend, -⟩
    · exact isScanned_of_takes hcuts.takes
    · exact absurd hend inner

theorem isScanned_tokenize {text : String} {ts : List Token} {p : Position}
    (h : tokenize text = .ok (ts ++ [.endOfText p])) : ∀ t ∈ ts, t.IsScanned := by
  obtain ⟨u, hreads, -⟩ := reads_of_tokenize h
  exact isScanned_of_reads hreads

/-- A prefix is declared in lower case. -/
theorem IsDeclaration.lowered {ts rest : List Token} {d : String × String}
    (h : IsDeclaration ts d rest) : Lowered d.1 := by
  cases h with
  | named => exact lowered_lowerCase _
  | unnamed =>
    change Lowered unnamedPrefix
    decide

theorem isRead_of_isModifiers {ts rest : List Token} {ms : List Modifier}
    (h : IsModifiers ts ms rest) (hts : ∀ t ∈ ts, t.IsScanned) : ∀ m ∈ ms, m.IsRead := by
  induction h with
  | none => exact fun _ hm => nomatch hm
  | @flag _ name ts _ _ _ _ named _ _ ih =>
    intro m hm
    rcases List.mem_cons.1 hm with rfl | hm
    · refine ⟨⟨mt lowerCase_eq_empty named, .inl ⟨rfl, rfl⟩⟩, lowered_lowerCase _, ?_⟩
      exact fun _ hc => nomatch hc
    · exact ih (fun t ht => hts t (by simp [ht])) m hm
  | @comparison _ name comparator value ts _ _ _ _ named relation _ _ ih =>
    intro m hm
    rcases List.mem_cons.1 hm with rfl | hm
    · have hrun := hts comparator (by simp) relation
      exact ⟨⟨mt lowerCase_eq_empty named, .inr hrun⟩, lowered_lowerCase _, lowered_lowerCase _⟩
    · exact ih (fun t ht => hts t (by simp [ht])) m hm

def Scope.IsRead (choice : ServerChoice) (s : Scope) : Prop :=
  s = .ofChoice choice ∨ Lowered s.field ∧ Lowered s.relation ∧ ∀ m ∈ s.modifiers, m.IsRead

/-- Is the meaning made of what the reader makes, where `ds` has been declared in front of it? -/
structure Meaning.IsRead (choice : ServerChoice) (ds : List (String × String)) (m : Meaning) :
    Prop where
  node : m.node.IsRead choice (ds ++ m.declared)
  declared : ∀ d ∈ m.declared, Lowered d.1

/-- What the grammar derives is made of words of the text and the server's choice. -/
theorem isRead_of_derives {choice : ServerChoice} {phrase : Phrase} {scope : Scope} {r : Registry}
    {ts rest : List Token} {m : Meaning} (h : Derives phrase scope r ts m rest)
    (hts : ∀ t ∈ ts, t.IsScanned) (hscope : scope.IsRead choice) {ds : List (String × String)}
    (hr : r = Registry.seeded.registerAll ds)
    (hleft : ∀ left, phrase = .chain left → left.IsRead choice ds) : m.IsRead choice ds := by
  induction h generalizing ds with
  | query clause _ ihf ihc =>
    have hfirst := ihf hts hscope hr nofun
    exact ihc (fun t ht => hts t (clause.suffix.subset ht)) hscope hr fun left hl => by
      cases hl
      exact hfirst
  | stop => exact hleft _ rfl
  | @operator _ _ t ts mid after rest left right m op ms _ modifiers operand _ iho ihc =>
    have hl := hleft left rfl
    have hmid := modifiers.suffix.trans (List.suffix_cons t ts)
    have hsuffix := operand.suffix.trans hmid
    have hright : right.IsRead choice (ds ++ left.declared) :=
      iho (fun t ht => hts t (hmid.subset ht)) hscope (by rw [hr, Registry.registerAll_append])
        nofun
    have hms := isRead_of_isModifiers modifiers fun t ht => hts t (List.mem_cons_of_mem _ ht)
    -- What the right operand declares holds from there on, so the left one is only weakened.
    have hnext : Meaning.IsRead choice ds ⟨.boolean op ms left.node right.node,
        max left.nesting right.nesting, left.declared ++ right.declared⟩ := by
      refine ⟨⟨hms, ?_, ?_⟩, ?_⟩
      · dsimp only
        rw [← List.append_assoc]
        exact hl.node.mono
      · dsimp only
        rw [← List.append_assoc]
        exact hright.node
      · intro d hd
        exact (List.mem_append.1 hd).elim (hl.declared d) (hright.declared d)
    exact ihc (fun t ht => hts t (hsuffix.subset ht)) hscope hr fun left hl => by
      cases hl
      exact hnext
  | group _ _ _ ih =>
    have hm := ih (fun t ht => hts t (List.mem_cons_of_mem _ ht)) hscope hr nofun
    exact ⟨hm.node, hm.declared⟩
  | term =>
    refine ⟨?_, nofun⟩
    rw [hr]
    rcases hscope with rfl | ⟨hf, hrel, hms⟩
    · exact .inherited (List.prefix_append ds []) (lowered_lowerCase _)
    · exact .worded (List.prefix_append ds []) hf hrel hms (lowered_lowerCase _)
  | @indexed _ _ t relation ts _ _ _ _ _ _ modifiers _ ih =>
    have hmid := modifiers.suffix.trans (List.suffix_append [t, relation] ts)
    have hms := isRead_of_isModifiers modifiers fun u hu => hts u (by simp [hu])
    have hm := ih (fun t ht => hts t (hmid.subset ht))
      (.inr ⟨lowered_lowerCase _, lowered_lowerCase _, hms⟩) hr nofun
    exact ⟨hm.node, hm.declared⟩
  | @declaration _ r t ts mid rest d m _ declaration _ ih =>
    have hmid := declaration.suffix.trans (List.suffix_cons t ts)
    have hm : m.IsRead choice (ds ++ [d]) :=
      ih (fun t ht => hts t (hmid.subset ht)) hscope
        (by rw [hr, ← Registry.registerAll_append]; rfl) nofun
    refine ⟨?_, ?_⟩
    · have := hm.node
      rwa [List.append_assoc] at this
    · exact List.forall_mem_cons.2 ⟨declaration.lowered, hm.declared⟩

theorem Means.isRead {choice : ServerChoice} {text : String} {m : Meaning}
    (h : Means choice text m) : m.IsRead choice [] := by
  obtain ⟨ts, p, ht, hd⟩ := h.derives
  exact isRead_of_derives hd (isScanned_tokenize ht) (.inl rfl) rfl nofun

end Cql

end ContextQuery
