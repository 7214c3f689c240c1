import ContextQuery.Proofs.Cql.Echo
import ContextQuery.Proofs.Cql.Origin
import ContextQuery.Proofs.Cql.Partition
import ContextQuery.Proofs.Cql.Refusal
import ContextQuery.Proofs.Cql.Reread

namespace ContextQuery.Cql
open Text

structure Token.Agrees (t t' : Token) : Prop where
  kind : t'.kind = t.kind
  lower : t'.lower = t.lower

inductive Agree : List Token → List Token → Prop
  | nil : Agree [] []
  | cons {t t' : Token} {ts us : List Token} (head : t.Agrees t')
    (gap : ∀ u ∈ ts.head?, ∀ u' ∈ us.head?, t'.touches u' = t.touches u) (more : Agree ts us) :
    Agree (t :: ts) (t' :: us)

variable {ts us : List Token}

/-- The case of a comparator is no matter. -/
theorem echo_of_agree (h : Agree ts us) (hts : ∀ t ∈ ts, t.IsScanned)
    (hus : ∀ t ∈ us, t.IsScanned) : Echo [] ts us := by
  induction h with
  | nil => exact .done
  | @cons t t' ts us head gap more ih =>
    obtain ⟨ht, hts⟩ := List.forall_mem_cons.1 hts
    obtain ⟨ht', hus⟩ := List.forall_mem_cons.1 hus
    refine .cons ⟨head.kind, head.lower, fun hk => ?_⟩ gap (ih hts hus)
    have hlower : lowerCase t'.value = lowerCase t.value := head.lower
    rwa [lowerCase_comparatorRun (ht hk), lowerCase_comparatorRun (ht' (head.kind.trans hk))]
      at hlower

section Echo

theorem Token.Echoes.symm {t t' : Token} (h : t.Echoes t') : t'.Echoes t :=
  ⟨h.kind.symm, h.lower.symm, fun hk => (h.comparator (h.kind.symm.trans hk)).symm⟩

theorem Echo.length_eq (h : Echo [] ts us) : us.length = ts.length := by
  induction h with
  | done => rfl
  | cons _ _ _ ih => exact congrArg (· + 1) ih

/-- What holds of the next token on the left holds of the next one on the right. -/
theorem Echo.forall_head? (h : Echo [] ts us) {P : Token → Prop}
    (hecho : ∀ t t' : Token, t.Echoes t' → P t → P t') (hts : ∀ t ∈ ts.head?, P t) :
    ∀ u ∈ us.head?, P u := by
  cases h with
  | done => exact nofun
  | @cons t t' _ _ head _ _ =>
    intro u hu
    obtain rfl : t' = u := Option.some.inj hu
    exact hecho t t' head (hts t rfl)

theorem refusesModifiers_of_echo {place : List Token} {cause : Cause}
    (h : RefusesModifiers ts cause place) (he : Echo [] ts us) :
    ∃ place', RefusesModifiers us cause place' ∧ Echo [] place place' := by
  induction h generalizing us with
  | name mark nameless =>
    obtain _ | ⟨hslash, -, hmore⟩ := he
    refine ⟨_, .name (hslash.kind.trans mark) (hmore.forall_head? (fun t t' h ht => ?_) nameless),
      hmore⟩
    exact fun ⟨hw, hv⟩ => ht ⟨h.isWord.symm.trans hw, h.symm.value_ne_empty hv⟩
  | value mark word named relation missing =>
    obtain _ | ⟨hslash, -, hrest⟩ := he
    obtain _ | ⟨hname, -, hrest⟩ := hrest
    obtain _ | ⟨hcomparator, -, hmore⟩ := hrest
    refine ⟨_, .value (hslash.kind.trans mark) (hname.isWord.trans word)
      (hname.value_ne_empty named) (hcomparator.kind.trans relation)
      (hmore.forall_head? (fun t t' h ht => ?_) missing), hmore⟩
    exact h.isWord.trans ht
  | flag mark word named stop _ ih =>
    obtain _ | ⟨hslash, -, hrest⟩ := he
    obtain _ | ⟨hname, -, hmore⟩ := hrest
    obtain ⟨place', hrefuses, hplace⟩ := ih hmore
    refine ⟨place', .flag (hslash.kind.trans mark) (hname.isWord.trans word)
      (hname.value_ne_empty named) (hmore.forall_head? (fun t t' h ht => ?_) stop) hrefuses, hplace⟩
    rwa [h.kind]
  | comparison mark word named relation operand _ ih =>
    obtain _ | ⟨hslash, -, hrest⟩ := he
    obtain _ | ⟨hname, -, hrest⟩ := hrest
    obtain _ | ⟨hcomparator, -, hrest⟩ := hrest
    obtain _ | ⟨hvalue, -, hmore⟩ := hrest
    obtain ⟨place', hrefuses, hplace⟩ := ih hmore
    exact ⟨place', .comparison (hslash.kind.trans mark) (hname.isWord.trans word)
      (hname.value_ne_empty named) (hcomparator.kind.trans relation)
      (hvalue.isWord.trans operand) hrefuses, hplace⟩

theorem refusesDeclaration_of_echo {place : List Token} (h : RefusesDeclaration ts place)
    (he : Echo [] ts us) : ∃ place', RefusesDeclaration us place' ∧ Echo [] place place' := by
  cases h with
  | first missing =>
    exact ⟨us, .first (he.forall_head? (fun t t' h ht => h.isWord.trans ht) missing), he⟩
  | identifier word equals missing =>
    obtain _ | ⟨hkey, -, hrest⟩ := he
    obtain _ | ⟨hsign, -, hmore⟩ := hrest
    exact ⟨_, .identifier (hkey.isWord.trans word) ((hsign.isComparator _).trans equals)
      (hmore.forall_head? (fun t t' h ht => h.isWord.trans ht) missing), hmore⟩

/-- Tokens that echo are refused at the same place. The cause may show another case of the token. -/
theorem refuses_of_echo {n : Nat} {phrase : Phrase} {scope : Scope} {r : Registry}
    {place : List Token} {cause : Cause} (h : Refuses n phrase scope r ts cause place)
    (he : Echo [] ts us) :
    ∃ cause' place', Refuses n phrase scope r us cause' place' ∧ Echo [] place place' := by
  induction h generalizing us with
  | first _ ih =>
    obtain ⟨cause', place', hrefuses, hplace⟩ := ih he
    exact ⟨cause', place', .first hrefuses, hplace⟩
  | further clause fits _ ih =>
    obtain ⟨mid, hclause, hmid⟩ := derives_of_echo clause he nofun
    obtain ⟨cause', place', hrefuses, hplace⟩ := ih hmid
    exact ⟨cause', place', .further hclause fits hrefuses, hplace⟩
  | operator keyword modifiers =>
    obtain _ | ⟨head, -, hmore⟩ := he
    obtain ⟨place', hrefuses, hplace⟩ := refusesModifiers_of_echo modifiers hmore
    exact ⟨_, place', .operator (head.operator?.trans keyword) hrefuses, hplace⟩
  | operand keyword modifiers _ ih =>
    obtain _ | ⟨head, -, hmore⟩ := he
    obtain ⟨mid, hms, hmid⟩ := isModifiers_of_echo modifiers hmore nofun
    obtain ⟨cause', place', hrefuses, hplace⟩ := ih hmid
    exact ⟨cause', place', .operand (head.operator?.trans keyword) hms hrefuses, hplace⟩
  | height keyword modifiers operand fits high =>
    obtain _ | ⟨head, gap, hmore⟩ := he
    obtain ⟨mid, hms, hmid⟩ := isModifiers_of_echo modifiers hmore nofun
    obtain ⟨after, hright, -⟩ := derives_of_echo operand hmid nofun
    exact ⟨_, _, .height (head.operator?.trans keyword) hms hright fits high, .cons head gap hmore⟩
  | chain keyword modifiers operand fits _ ih =>
    obtain _ | ⟨head, -, hmore⟩ := he
    obtain ⟨mid, hms, hmid⟩ := isModifiers_of_echo modifiers hmore nofun
    obtain ⟨after, hright, hafter⟩ := derives_of_echo operand hmid nofun
    obtain ⟨cause', place', hrefuses, hplace⟩ := ih hafter
    exact ⟨cause', place', .chain (head.operator?.trans keyword) hms hright fits hrefuses, hplace⟩
  | nesting => exact ⟨_, us, .nesting, he⟩
  | endOfText =>
    obtain _ | _ := he
    exact ⟨_, [], .endOfText, .done⟩
  | start noGroup noWord noMark =>
    obtain _ | ⟨head, gap, hmore⟩ := he
    refine ⟨_, _, .start ?_ (head.isWord.trans noWord) ((head.isComparator _).trans noMark),
      .cons head gap hmore⟩
    rwa [head.kind]
  | group opens _ ih =>
    obtain _ | ⟨head, -, hmore⟩ := he
    obtain ⟨cause', place', hrefuses, hplace⟩ := ih hmore
    exact ⟨cause', place', .group (head.kind.trans opens) hrefuses, hplace⟩
  | unclosed opens query fits unclosed =>
    obtain _ | ⟨head, -, hmore⟩ := he
    obtain ⟨rest, hquery, hrest⟩ := derives_of_echo query hmore nofun
    refine ⟨_, rest, .unclosed (head.kind.trans opens) hquery fits
      (hrest.forall_head? (fun t t' h ht => ?_) unclosed), hrest⟩
    rwa [h.kind]
  | relation word isRelation modifiers =>
    obtain _ | ⟨head, -, hrest⟩ := he
    obtain _ | ⟨hrelation, -, hmore⟩ := hrest
    obtain ⟨place', hrefuses, hplace⟩ := refusesModifiers_of_echo modifiers hmore
    exact ⟨_, place', .relation (head.isWord.trans word) (hrelation.isRelation.trans isRelation)
      hrefuses, hplace⟩
  | indexed word isRelation modifiers _ ih =>
    obtain _ | ⟨head, -, hrest⟩ := he
    obtain _ | ⟨hrelation, -, hmore⟩ := hrest
    obtain ⟨mid, hms, hmid⟩ := isModifiers_of_echo modifiers hmore nofun
    rw [← head.lower, ← hrelation.lower] at ih
    obtain ⟨cause', place', hrefuses, hplace⟩ := ih hmid
    exact ⟨cause', place', .indexed (head.isWord.trans word)
      (hrelation.isRelation.trans isRelation) hms hrefuses, hplace⟩
  | declaration mark declaration =>
    obtain _ | ⟨head, -, hmore⟩ := he
    obtain ⟨place', hrefuses, hplace⟩ := refusesDeclaration_of_echo declaration hmore
    exact ⟨_, place', .declaration ((head.isComparator _).trans mark) hrefuses, hplace⟩
  | declared mark declaration _ ih =>
    obtain _ | ⟨head, -, hmore⟩ := he
    obtain ⟨mid, hd, hmid⟩ := isDeclaration_of_echo declaration hmore nofun
    obtain ⟨cause', place', hrefuses, hplace⟩ := ih hmid
    exact ⟨cause', place', .declared ((head.isComparator _).trans mark) hd hrefuses, hplace⟩

theorem refusesText_of_echo {scope : Scope} {place : List Token} {cause : Cause}
    (h : RefusesText scope ts cause place) (he : Echo [] ts us) :
    ∃ cause' place', RefusesText scope us cause' place' ∧ Echo [] place place' := by
  cases h with
  | query query =>
    obtain ⟨cause', place', hrefuses, hplace⟩ := refuses_of_echo query he
    exact ⟨cause', place', .query hrefuses, hplace⟩
  | rest query fits =>
    obtain ⟨place', hquery, hplace⟩ := derives_of_echo query he nofun
    obtain _ | ⟨head, gap, hmore⟩ := hplace
    exact ⟨_, _, .rest hquery fits, .cons head gap hmore⟩

end Echo

section Blank

/-- Is the token a word of white space? That is space which separates no tokens. -/
structure Token.IsBlank (t : Token) : Prop where
  kind : t.kind = .bareword
  value : isBlankText t.value = true

theorem Token.Agrees.isBlank {t t' : Token} (h : t.Agrees t') (ht : t.IsBlank) : t'.IsBlank := by
  have hlower : lowerCase t'.value = lowerCase t.value := h.lower
  refine ⟨h.kind.trans ht.kind, ?_⟩
  rw [← isBlankText_lowerCase, hlower, isBlankText_lowerCase]
  exact ht.value

theorem Agree.isBlank (h : Agree ts us) (hts : ∀ t ∈ ts, t.IsBlank) : ∀ t ∈ us, t.IsBlank := by
  induction h with
  | nil => exact nofun
  | cons head _ _ ih =>
    obtain ⟨ht, hts⟩ := List.forall_mem_cons.1 hts
    exact List.forall_mem_cons.2 ⟨head.isBlank ht, ih hts⟩

theorem isBlank_of_isSpace {c : Char} (h : isSpace c = true) : isBlank c = true := by
  simp only [isSpace, Bool.or_eq_true, beq_iff_eq] at h
  rcases h with ((rfl | rfl) | rfl) | rfl <;> decide

theorem isBlank_takes_iff {t : Token} {taken rest : List Char} (h : Takes taken t.content rest) :
    (∀ c ∈ taken, isBlank c = true) ↔ t.IsBlank := by
  have hkind {kind : TokenKind} {value : String} (hk : t.content = (kind, value))
      (hne : kind ≠ .bareword) : ¬ t.IsBlank := fun hb =>
    hne ((congrArg Prod.fst hk).symm.trans hb.kind)
  generalize hcontent : t.content = k at h
  cases h with
  | @punctuation c kind _ mark =>
    refine iff_of_false (fun hblank => ?_) (hkind hcontent fun hk => ?_)
    · have hc := hblank c List.mem_cons_self
      unfold punctuation? at mark
      split_ifs at mark with ho hp hs
      · exact absurd (ho ▸ hc) (by decide)
      · exact absurd (hp ▸ hc) (by decide)
      · exact absurd (hs ▸ hc) (by decide)
    · rw [hk] at mark
      exact absurd (kind_of_punctuation mark) (by decide)
  | @comparator c cs _ run _ =>
    refine iff_of_false (fun hblank => ?_) (hkind hcontent (by decide))
    have hc := hblank c List.mem_cons_self
    have hrun := run c List.mem_cons_self
    simp only [isComparatorChar, Bool.or_eq_true, beq_iff_eq] at hrun
    rcases hrun with (rfl | rfl) | rfl <;> revert hc <;> decide
  | @literal mark body _ quote _ =>
    refine iff_of_false (fun hblank => ?_) (hkind hcontent (by decide))
    have hmark := hblank mark List.mem_cons_self
    simp only [isQuote, Bool.or_eq_true, beq_iff_eq] at quote
    rcases quote with rfl | rfl <;> revert hmark <;> decide
  | @word c cs _ _ _ _ =>
    have hvalue : t.value = String.ofList (c :: cs) := congrArg Prod.snd hcontent
    have htext : isBlankText t.value = true ↔ ∀ d ∈ c :: cs, isBlank d = true := by
      rw [hvalue, isBlankText, String.toList_ofList, List.all_eq_true]
    exact ⟨fun h => ⟨congrArg Prod.fst hcontent, htext.2 h⟩, fun h => htext.1 h.value⟩

theorem Reads.isBlank_iff {s u : Cursor} (h : Reads s ts u) :
    (∀ c ∈ s.rest, isBlank c = true) ↔
      (∀ t ∈ ts, t.IsBlank) ∧ ∀ c ∈ u.rest, isBlank c = true := by
  induction h with
  | nil => exact (and_iff_right nofun).symm
  | @cons s u v t ts hnext inner _ ih =>
    obtain ⟨gap, taken, hcuts⟩ := (cuts_of_next hnext).resolve_right fun h => inner h.1
    have hgap : ∀ c ∈ gap, isBlank c = true := fun c hc => isBlank_of_isSpace (hcuts.space c hc)
    rw [hcuts.rest, List.forall_mem_append, List.forall_mem_append, isBlank_takes_iff hcuts.takes,
      ih, List.forall_mem_cons, and_iff_right hgap, and_assoc]

/-- A text is blank exactly if it is cut into words of white space. -/
theorem isBlankText_iff {text : String} : isBlankText text = true ↔
    (∃ p, (Scan.ofText text).ending = .complete p) ∧
      ∀ t ∈ (Scan.ofText text).tokens, t.IsBlank := by
  generalize hscan : Scan.ofText text = scan
  obtain ⟨ts, e⟩ := scan
  obtain ⟨u, hreads, hends⟩ := scan_ofText_eq_iff.1 hscan
  rw [isBlankText, List.all_eq_true]
  refine hreads.isBlank_iff.trans ?_
  cases hends with
  | complete space =>
    have hspace : ∀ c ∈ u.rest, isBlank c = true := fun c hc => isBlank_of_isSpace (space c hc)
    rw [and_iff_left hspace, and_iff_right ⟨_, rfl⟩]
  | broken next =>
    obtain ⟨gap, mark, behind, hrest, -, hquote, -⟩ := Cursor.next_eq_error_iff.1 next
    refine iff_of_false (fun h => ?_) ?_
    · have hmark := h.2 mark (by simp [hrest])
      simp only [isQuote, Bool.or_eq_true, beq_iff_eq] at hquote
      rcases hquote with rfl | rfl <;> revert hmark <;> decide
    · rintro ⟨⟨p, hcomplete⟩, -⟩
      cases hcomplete

end Blank

/-- Do the readings of two texts with these tokens agree? Both give the same tree and the same
registry, or both texts are empty, or both are refused at tokens with the same index. -/
inductive SameOutcome (ts us : List Token) : Except Fault Query → Except Fault Query → Prop
  | accepted {q q' : Query} (root : q'.root = q.root) (registry : q'.registry = q.registry) :
    SameOutcome ts us (.ok q) (.ok q')
  | empty : SameOutcome ts us (.error ⟨.emptyQuery, none⟩) (.error ⟨.emptyQuery, none⟩)
  | refused {cause cause' : Cause} {t t' : Token} (index : Nat) (left : ts[index]? = some t)
    (right : us[index]? = some t') :
    SameOutcome ts us (.error ⟨cause, some t.start⟩) (.error ⟨cause', some t'.start⟩)

/-- A fault stands at the token at which what is left of a text begins, or at its end. -/
theorem exists_faultAt_eq {p : Position} {place : List Token} (h : place <:+ ts) (cause : Cause) :
    ∃ t, (ts ++ [.endOfText p])[ts.length - place.length]? = some t ∧
      (Ending.complete p).faultAt place cause = ⟨cause, some t.start⟩ := by
  obtain ⟨front, rfl⟩ := h
  rw [List.length_append, Nat.add_sub_cancel, List.append_assoc, List.getElem?_append_right
    (Nat.le_refl _), Nat.sub_self]
  cases place with
  | nil => exact ⟨_, rfl, rfl⟩
  | cons t place => exact ⟨t, rfl, rfl⟩

section Text
variable {choice : ServerChoice} {text text' : String} {p p' : Position}

theorem isBlankText_of_agree (h : tokenize text = .ok (ts ++ [.endOfText p]))
    (h' : tokenize text' = .ok (us ++ [.endOfText p'])) (hagree : Agree ts us)
    (hb : isBlankText text = true) : isBlankText text' = true := by
  rw [isBlankText_iff, tokenize_inv h] at hb
  rw [isBlankText_iff, tokenize_inv h']
  exact ⟨⟨p', rfl⟩, hagree.isBlank hb.2⟩

theorem Agree.symm (h : Agree ts us) : Agree us ts := by
  induction h with
  | nil => exact .nil
  | cons head gap _ ih =>
    exact .cons ⟨head.kind.symm, head.lower.symm⟩ (fun u hu u' hu' => (gap u' hu' u hu).symm) ih

/-- Texts whose tokens agree are read alike. The end of a text need not touch the last token in the
one as in the other. -/
theorem sameOutcome_of_agree (h : tokenize text = .ok (ts ++ [.endOfText p]))
    (h' : tokenize text' = .ok (us ++ [.endOfText p'])) (hagree : Agree ts us) :
    SameOutcome (ts ++ [.endOfText p]) (us ++ [.endOfText p']) (read choice text)
      (read choice text') := by
  have hecho := echo_of_agree hagree (isScanned_tokenize h) (isScanned_tokenize h')
  cases hb : isBlankText text with
  | true =>
    have hb' := isBlankText_of_agree h h' hagree hb
    rw [read, read, hb, hb']
    exact .empty
  | false =>
    have hb' : isBlankText text' = false := by
      rw [Bool.eq_false_iff]
      intro hblank
      rw [isBlankText_of_agree h' h hagree.symm hblank] at hb
      cases hb
    cases hread : read choice text with
    | ok q =>
      obtain ⟨m, hm, rfl⟩ := means_of_read hread
      obtain ⟨inner, q, htokens, hd⟩ := hm.derives
      obtain ⟨rfl, -⟩ := List.append_inj' (Except.ok.inj (h.symm.trans htokens)) rfl
      obtain ⟨rest, hd', hrest⟩ := derives_of_echo hd hecho fun _ hu => by cases hu
      cases hrest
      rw [read_of_means ⟨hb', ⟨us, p', h', hd'⟩, hm.nesting, hm.height⟩]
      exact .accepted rfl rfl
    | error fault =>
      have hexplains := explains_of_read hb hread
      rw [tokenize_inv h] at hexplains
      obtain ⟨cause, place, hrefuses, -, rfl⟩ := hexplains.resolve_left fun he => by cases he
      obtain ⟨cause', place', hrefuses', hplace⟩ := refusesText_of_echo hrefuses hecho
      rw [read_of_refusesText hb' (tokenize_inv h') hrefuses' (view_complete _) fun _ => ⟨_, rfl⟩]
      obtain ⟨t, ht, hfault⟩ := exists_faultAt_eq (p := p) hrefuses.suffix cause
      obtain ⟨t', ht', hfault'⟩ := exists_faultAt_eq (p := p') hrefuses'.suffix cause'
      rw [hfault, hfault']
      rw [hecho.length_eq, hplace.length_eq] at ht'
      exact .refused _ ht ht'

end Text

end ContextQuery.Cql
