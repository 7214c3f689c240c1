import ContextQuery.Proofs.Cql.Grammar
import ContextQuery.Proofs.Text.LowerCase

namespace ContextQuery.Cql
open Text

structure Token.Echoes (t t' : Token) : Prop where
  kind : t'.kind = t.kind
  lower : t'.lower = t.lower
  comparator : t.kind = .comparator → t'.value = t.value

namespace Token.Echoes
variable {t t' : Token}

theorem isWord (h : t.Echoes t') : t'.isWord = t.isWord := by
  rw [Token.isWord, Token.isWord, h.kind]

theorem value_ne_empty (h : t.Echoes t') (hv : t.value ≠ "") : t'.value ≠ "" := by
  intro he
  have hlower : t'.lower = "" := by
    rw [Token.lower, he]
    rfl
  rw [h.lower] at hlower
  exact hv (lowerCase_eq_empty hlower)

theorem operator? (h : t.Echoes t') : t'.operator? = t.operator? := by
  have hlower : lowerCase t'.value = lowerCase t.value := h.lower
  rw [Token.operator?, Token.operator?, h.kind, BooleanOp.ofKeyword?, BooleanOp.ofKeyword?, hlower]

theorem isComparator (h : t.Echoes t') (s : String) : t'.isComparator s = t.isComparator s := by
  by_cases hk : t.kind = .comparator
  · rw [Token.isComparator, Token.isComparator, h.kind, h.comparator hk]
  · have hk' : t'.kind ≠ .comparator := h.kind ▸ hk
    rw [Token.isComparator, Token.isComparator, beq_false_of_ne hk, beq_false_of_ne hk']
    rfl

theorem isRelation (h : t.Echoes t') : t'.isRelation = t.isRelation := by
  rw [Token.isRelation, Token.isRelation, h.kind, h.isWord, Token.isKeyword, Token.isKeyword,
    h.operator?]

theorem continues (h : t.Echoes t') (c : Bool) : t'.continues c = t.continues c := by
  rw [Token.continues, Token.continues, h.kind]

end Token.Echoes

/-- The tokens on the right echo those on the left with the same gaps, and behind them stand the
tokens of the tail. -/
inductive Echo (tail : List Token) : List Token → List Token → Prop
  | done : Echo tail [] tail
  | cons {t t' : Token} {ts us : List Token} (head : t.Echoes t')
    (gap : ∀ u ∈ ts.head?, ∀ u' ∈ us.head?, t'.touches u' = t.touches u) (more : Echo tail ts us) :
    Echo tail (t :: ts) (t' :: us)

def Closing (tail : List Token) : Prop := ∀ t ∈ tail.head?, t.kind = .closeParen

variable {tail ts us rest : List Token}

/-- What stops a phrase on the left stops it on the right, and a parenthesis stops every phrase. -/
theorem Echo.head? (h : Echo tail ts us) (htail : Closing tail) {P : Token → Prop}
    (hecho : ∀ t t' : Token, t.Echoes t' → P t → P t')
    (hclose : ∀ t : Token, t.kind = .closeParen → P t) (hts : ∀ t ∈ ts.head?, P t) :
    ∀ u ∈ us.head?, P u := by
  cases h with
  | done => exact fun u hu => hclose u (htail u hu)
  | @cons t t' _ _ head _ _ =>
    intro u hu
    obtain rfl : t' = u := Option.some.inj hu
    exact hecho t t' head (hts t rfl)

theorem isModifiers_of_echo {ms : List Modifier} (h : IsModifiers ts ms rest) (he : Echo tail ts us)
    (htail : Closing tail) : ∃ us', IsModifiers us ms us' ∧ Echo tail rest us' := by
  induction h generalizing us with
  | none stop =>
    refine ⟨us, .none (he.head? htail (fun t t' h hk => ?_) (fun t hk => ?_) stop), he⟩
    · rwa [h.kind]
    · rw [hk]
      decide
  | @flag slash name ts rest ms mark word named stop more ih =>
    obtain _ | ⟨hslash, -, hrest⟩ := he
    obtain _ | ⟨hname, -, hmore⟩ := hrest
    obtain ⟨us', hms, hus'⟩ := ih hmore
    refine ⟨us', ?_, hus'⟩
    rw [← hname.lower]
    refine .flag (hslash.kind.trans mark) (hname.isWord.trans word) (hname.value_ne_empty named)
      (hmore.head? htail (fun t t' h hk => ?_) (fun t hk => ?_) stop) hms
    · rwa [h.kind]
    · rw [hk]
      decide
  | @comparison slash name comparator value ts rest ms mark word named relation operand more ih =>
    obtain _ | ⟨hslash, -, hrest⟩ := he
    obtain _ | ⟨hname, -, hrest⟩ := hrest
    obtain _ | ⟨hcomparator, -, hrest⟩ := hrest
    obtain _ | ⟨hvalue, -, hmore⟩ := hrest
    obtain ⟨us', hms, hus'⟩ := ih hmore
    refine ⟨us', ?_, hus'⟩
    rw [← hname.lower, ← hvalue.lower, ← hcomparator.comparator relation]
    exact .comparison (hslash.kind.trans mark) (hname.isWord.trans word)
      (hname.value_ne_empty named) (hcomparator.kind.trans relation)
      (hvalue.isWord.trans operand) hms

theorem isRun_of_echo {c : Bool} {last last' : Token} {run : List Token}
    (h : IsRun c last ts run rest) (he : Echo tail (last :: ts) (last' :: us))
    (htail : Closing tail) : ∃ run' us', IsRun c last' us run' us' ∧
      run'.map Token.lower = run.map Token.lower ∧ Echo tail rest us' := by
  induction h generalizing last' us with
  | @stop last ts gap =>
    obtain _ | ⟨-, hgap, hmore⟩ := he
    refine ⟨[], us, .stop fun u hu => ?_, rfl, hmore⟩
    cases hmore with
    | done =>
      -- What touches the last token now is a parenthesis, which goes on with no identifier.
      rintro ⟨hcontinues, -⟩
      simp [Token.continues, htail u hu] at hcontinues
    | @cons t t' _ _ head _ _ =>
      obtain rfl : t' = u := Option.some.inj hu
      rw [head.continues, hgap t rfl t' rfl]
      exact gap t rfl
  | @step last t ts run rest continues touches more ih =>
    obtain _ | ⟨-, hgap, hmore⟩ := he
    obtain _ | ⟨head, hgap', hmore'⟩ := hmore
    obtain ⟨run', us', hrun, hlower, hus'⟩ := ih (.cons head hgap' hmore')
    refine ⟨_ :: run', us', .step ((head.continues c).trans continues)
      ((hgap _ rfl _ rfl).trans touches) hrun, ?_, hus'⟩
    rw [List.map_cons, List.map_cons, hlower, head.lower]

theorem isIdentifier_of_echo {c : Bool} {id : String} (h : IsIdentifier c ts id rest)
    (he : Echo tail ts us) (htail : Closing tail) :
    ∃ us', IsIdentifier c us id us' ∧ Echo tail rest us' := by
  cases h with
  | quoted kind =>
    obtain _ | ⟨head, -, hmore⟩ := he
    refine ⟨_, ?_, hmore⟩
    rw [← head.lower]
    exact .quoted (head.kind.trans kind)
  | bare kind more =>
    obtain _ | ⟨head, hgap, hmore⟩ := he
    obtain ⟨run', us', hrun, hlower, hus'⟩ := isRun_of_echo more (.cons head hgap hmore) htail
    refine ⟨us', ?_, hus'⟩
    rw [List.map_cons, ← hlower, ← head.lower, ← List.map_cons]
    exact .bare (head.kind.trans kind) hrun

theorem isDeclaration_of_echo {d : String × String} (h : IsDeclaration ts d rest)
    (he : Echo tail ts us) (htail : Closing tail) :
    ∃ us', IsDeclaration us d us' ∧ Echo tail rest us' := by
  cases h with
  | named word equals identifier =>
    obtain _ | ⟨hkey, -, hrest⟩ := he
    obtain _ | ⟨hsign, -, hmore⟩ := hrest
    obtain ⟨us', hid, hus'⟩ := isIdentifier_of_echo identifier hmore htail
    refine ⟨us', ?_, hus'⟩
    rw [← hkey.lower]
    exact .named (hkey.isWord.trans word) ((hsign.isComparator _).trans equals) hid
  | unnamed bare identifier =>
    obtain ⟨us', hid, hus'⟩ := isIdentifier_of_echo identifier he htail
    obtain _ | ⟨-, -, hmore⟩ := he
    refine ⟨us', .unnamed (hmore.head? htail (fun t t' h hk => ?_) (fun t hk => ?_) bare) hid, hus'⟩
    · exact (h.isComparator _).trans hk
    · simp [Token.isComparator, hk]

/-- The grammar derives the same from tokens that echo. -/
theorem derives_of_echo {phrase : Phrase} {scope : Scope} {r : Registry} {m : Meaning}
    (h : Derives phrase scope r ts m rest) (he : Echo tail ts us) (htail : Closing tail) :
    ∃ us', Derives phrase scope r us m us' ∧ Echo tail rest us' := by
  induction h generalizing us with
  | query _ _ ihf ihc =>
    obtain ⟨mid, hfirst, hmid⟩ := ihf he
    obtain ⟨us', hchain, hus'⟩ := ihc hmid
    exact ⟨us', .query hfirst hchain, hus'⟩
  | stop stop =>
    refine ⟨us, .stop (he.head? htail (fun t t' h hk => ?_) (fun t hk => ?_) stop), he⟩
    · exact h.operator?.trans hk
    · simp [Token.operator?, hk]
  | operator keyword modifiers _ _ iho ihc =>
    obtain _ | ⟨head, -, hmore⟩ := he
    obtain ⟨mid, hms, hmid⟩ := isModifiers_of_echo modifiers hmore htail
    obtain ⟨after, hright, hafter⟩ := iho hmid
    obtain ⟨us', hchain, hus'⟩ := ihc hafter
    exact ⟨us', .operator (head.operator?.trans keyword) hms hright hchain, hus'⟩
  | group opens _ closes ih =>
    obtain _ | ⟨head, -, hmore⟩ := he
    obtain ⟨mid, hquery, hmid⟩ := ih hmore
    obtain _ | ⟨hclosing, -, hrest⟩ := hmid
    exact ⟨_, .group (head.kind.trans opens) hquery (hclosing.kind.trans closes), hrest⟩
  | term word stop =>
    obtain _ | ⟨head, -, hmore⟩ := he
    refine ⟨_, ?_, hmore⟩
    rw [← head.lower]
    refine .term (head.isWord.trans word)
      (hmore.head? htail (fun t t' h hk => ?_) (fun t hk => ?_) stop)
    · exact h.isRelation.trans hk
    · simp [Token.isRelation, Token.isWord, hk]
  | indexed word isRelation modifiers _ ih =>
    obtain _ | ⟨head, -, hrest⟩ := he
    obtain _ | ⟨hrelation, -, hmore⟩ := hrest
    obtain ⟨mid, hms, hmid⟩ := isModifiers_of_echo modifiers hmore htail
    rw [← head.lower, ← hrelation.lower] at ih
    obtain ⟨us', hclause, hus'⟩ := ih hmid
    exact ⟨us', .indexed (head.isWord.trans word) (hrelation.isRelation.trans isRelation) hms
      hclause, hus'⟩
  | declaration mark declaration _ ih =>
    obtain _ | ⟨head, -, hmore⟩ := he
    obtain ⟨mid, hd, hmid⟩ := isDeclaration_of_echo declaration hmore htail
    obtain ⟨us', hquery, hus'⟩ := ih hmid
    exact ⟨us', .declaration ((head.isComparator _).trans mark) hd hquery, hus'⟩

end ContextQuery.Cql
