import ContextQuery.Proofs.Cql.Agreement
import ContextQuery.Proofs.Cql.Group
import Mathlib.Data.List.Forall2
import Mathlib.Logic.Relation

namespace ContextQuery.Cql
open Text

/-- Lists of tokens agree if the tokens do and no two of them touch in the one list alone. -/
theorem agree_of_forall₂ {R : Token → Token → Prop} {ts us : List Token}
    (h : List.Forall₂ R ts us) (hR : ∀ t t', R t t' → t.Agrees t')
    (hgap : ∀ t t' u u', R t t' → R u u' → t'.touches u' = t.touches u) : Agree ts us := by
  induction h with
  | nil => exact .nil
  | cons head more ih =>
    refine .cons (hR _ _ head) (fun u hu u' hu' => ?_) ih
    cases more with
    | nil => cases hu
    | cons next _ =>
      cases hu
      cases hu'
      exact hgap _ _ _ _ head next

/-- Lists of tokens agree piece by piece if the pieces do not touch. -/
theorem Agree.append {ts us ts' us' : List Token} (h : Agree ts us) (h' : Agree ts' us')
    (hts : ∀ t ∈ ts, ∀ u ∈ ts', t.touches u = false)
    (hus : ∀ t ∈ us, ∀ u ∈ us', t.touches u = false) : Agree (ts ++ ts') (us ++ us') := by
  induction h with
  | nil => exact h'
  | cons head gap more ih =>
    rw [List.forall_mem_cons] at hts hus
    refine .cons head (fun u hu u' hu' => ?_) (ih hts.2 hus.2)
    cases more with
    | nil => rw [hts.1 u (List.mem_of_head? hu), hus.1 u' (List.mem_of_head? hu')]
    | cons =>
      cases hu
      cases hu'
      exact gap _ rfl _ rfl

/-- Do the tokens of two scans agree, and is either both texts' or neither's scan complete? -/
structure Scan.Agrees (s s' : Scan) : Prop where
  tokens : Agree s.tokens s'.tokens
  complete : (∃ p, s.ending = .complete p) ↔ ∃ p, s'.ending = .complete p

section Letters

def foldText (s : String) : String := String.ofList (s.toList.map Char.toLower)

def Token.fold (t : Token) : Token := ⟨t.kind, foldText t.value, t.start, t.stop⟩

def Cursor.fold (s : Cursor) : Cursor := ⟨s.rest.map Char.toLower, s.position⟩

theorem foldText_ofList (cs : List Char) :
    foldText (String.ofList cs) = String.ofList (cs.map Char.toLower) := by
  rw [foldText, String.toList_ofList]

theorem foldText_eq_iff {s t : String} : foldText s = foldText t ↔ sameIgnoringCase s t = true := by
  rw [sameIgnoringCase_iff, foldText, foldText, String.ofList_inj]

theorem lowerCase_foldText (s : String) : lowerCase (foldText s) = lowerCase s := by
  rw [lowerCase, lowerCase, foldText, String.toList_ofList]
  exact congrArg String.ofList (lowerAfter_map [] s.toList)

theorem isSpace_toLower (c : Char) : isSpace c.toLower = isSpace c := of_toLower (by decide) c

theorem isComparatorChar_toLower (c : Char) : isComparatorChar c.toLower = isComparatorChar c :=
  of_toLower (by decide) c

theorem punctuation?_toLower (c : Char) : punctuation? c.toLower = punctuation? c :=
  of_toLower (by decide) c

theorem isQuote_toLower (c : Char) : isQuote c.toLower = isQuote c := of_toLower (by decide) c

theorem isDelimiter_toLower (c : Char) : isDelimiter c.toLower = isDelimiter c := by
  rw [isDelimiter, isDelimiter, punctuation?_toLower, isComparatorChar_toLower, isSpace_toLower]

theorem toLower_of_isQuote {mark : Char} (h : isQuote mark = true) : mark.toLower = mark := by
  simp only [isQuote, Bool.or_eq_true, beq_iff_eq] at h
  rcases h with rfl | rfl <;> decide

/-- A letter in either case is no mark and no backslash. -/
theorem toLower_eq_mark {mark : Char} (h : isQuote mark = true) (c : Char) :
    (c.toLower = mark) = (c = mark) := by
  simp only [isQuote, Bool.or_eq_true, beq_iff_eq] at h
  rcases h with rfl | rfl
  · exact of_toLower (f := (· = '"')) (by decide) c
  · exact of_toLower (f := (· = '\x27')) (by decide) c

theorem splitLiteral_map {mark : Char} (hmark : isQuote mark = true) (escaped : Bool)
    (cs : List Char) : splitLiteral mark escaped (cs.map Char.toLower) =
      (splitLiteral mark escaped cs).map fun (body, rest) =>
        (body.map Char.toLower, rest.map Char.toLower) := by
  induction cs generalizing escaped with
  | nil => rfl
  | cons c cs ih =>
    have hescape : (c.toLower == '\\') = (c == '\\') :=
      of_toLower (f := (· == '\\')) (by decide) c
    rw [List.map_cons, splitLiteral, splitLiteral]
    simp only [toLower_eq_mark hmark, hescape, ih]
    split
    · rfl
    · rw [Option.map_map, Option.map_map]
      rfl

theorem advance_toLower (p : Position) (c : Char) : p.advance c.toLower = p.advance c := by
  have hline : (c.toLower = '\n') = (c = '\n') := of_toLower (f := (· = '\n')) (by decide) c
  have hsize : c.toLower.utf8Size = c.utf8Size := of_toLower (f := Char.utf8Size) (by decide) c
  simp only [Position.advance, hline, hsize]

theorem after_map_toLower (p : Position) (cs : List Char) :
    p.after (cs.map Char.toLower) = p.after cs := by
  rw [Position.after, Position.after, List.foldl_map]
  exact congrArg (List.foldl · p cs) (funext₂ advance_toLower)

/-- The same characters are taken in another case. -/
theorem Takes.fold {t : Token} {taken rest : List Char} (h : Takes taken t.content rest) :
    Takes (taken.map Char.toLower) t.fold.content (rest.map Char.toLower) := by
  have hcontent {k : Content} (hk : t.content = k) : t.fold.content = (k.1, foldText k.2) := by
    rw [← hk]
    rfl
  generalize hk : t.content = k at h
  rw [hcontent hk]
  cases h with
  | @punctuation c kind _ mark =>
    have hc : foldText (String.singleton c) = String.singleton c.toLower := by
      rw [foldText, String.toList_singleton]
      rfl
    rw [hc]
    exact .punctuation ((punctuation?_toLower c).trans mark)
  | comparator run stop =>
    rw [foldText_ofList]
    exact .comparator (forall_mem_map_toLower isComparatorChar_toLower run)
      (forall_head?_map_toLower isComparatorChar_toLower stop)
  | @literal mark body _ quote closed =>
    have hsplit := splitLiteral_map quote false (body ++ [mark])
    rw [closed, List.map_append, List.map_singleton, toLower_of_isQuote quote] at hsplit
    rw [foldText_ofList, List.map_cons, List.map_append, List.map_singleton,
      toLower_of_isQuote quote]
    exact .literal quote hsplit
  | word bare run stop =>
    rw [foldText_ofList]
    exact .word ((isQuote_toLower _).trans bare) (forall_mem_map_toLower isDelimiter_toLower run)
      (forall_head?_map_toLower isDelimiter_toLower stop)

theorem Reads.fold {s u : Cursor} {ts : List Token} (h : Reads s ts u) :
    Reads s.fold (ts.map Token.fold) u.fold := by
  induction h with
  | nil => exact .nil _
  | @cons s u v t ts hnext inner _ ih =>
    obtain ⟨gap, taken, hcuts⟩ := (cuts_of_next hnext).resolve_right fun h => inner h.1
    have hnext' := next_of_takes (forall_mem_map_toLower isSpace_toLower hcuts.space)
      hcuts.takes.fold s.position
    have hrest : s.fold.rest =
        gap.map Char.toLower ++ (taken.map Char.toLower ++ u.rest.map Char.toLower) := by
      simp only [Cursor.fold, hcuts.rest, List.map_append]
    have htoken : t.fold.content.at ((s.position.after gap)) (taken.map Char.toLower) = t.fold := by
      rw [Content.at, after_map_toLower]
      conv_rhs => rw [hcuts.token]
      rfl
    rw [← hrest, after_map_toLower, after_map_toLower, htoken, ← hcuts.position] at hnext'
    exact .cons hnext' inner ih

theorem Ends.fold {u : Cursor} {e : Ending} (h : Ends u e) : Ends u.fold e := by
  cases h with
  | complete space =>
    have hend := Ends.complete (u := u.fold) (forall_mem_map_toLower isSpace_toLower space)
    rwa [Cursor.fold, after_map_toLower] at hend
  | broken next =>
    obtain ⟨gap, mark, behind, hrest, hgap, hquote, hnone, rfl, -⟩ :=
      Cursor.next_eq_error_iff.1 next
    refine .broken (Cursor.next_eq_error_iff.2 ⟨gap.map Char.toLower, mark,
      behind.map Char.toLower, ?_, forall_mem_map_toLower isSpace_toLower hgap, hquote, ?_, ?_,
      rfl⟩)
    · simp only [Cursor.fold, hrest, List.map_append, List.map_cons, toLower_of_isQuote hquote]
    · rw [splitLiteral_map hquote, hnone]
      rfl
    · simp only [Cursor.fold, after_map_toLower]

/-- A text is cut in the same places whatever the case of its letters. -/
theorem scan_foldText (text : String) : Scan.ofText (foldText text) =
    ⟨(Scan.ofText text).tokens.map Token.fold, (Scan.ofText text).ending⟩ := by
  obtain ⟨u, hreads, hends⟩ := scan_ofText_eq_iff.1 (Eq.refl (Scan.ofText text))
  have hfold : (Cursor.ofText text).fold = .ofText (foldText text) := by
    simp only [Cursor.fold, Cursor.ofText, foldText, String.toList_ofList]
  have hreads' := hreads.fold
  rw [hfold] at hreads'
  exact scan_ofText_eq_iff.2 ⟨u.fold, hreads', hends.fold⟩

theorem agrees_of_sameIgnoringCase {text text' : String}
    (h : sameIgnoringCase text text' = true) :
    (Scan.ofText text).Agrees (Scan.ofText text') := by
  have hscan := scan_foldText text
  rw [foldText_eq_iff.2 h, scan_foldText text'] at hscan
  obtain ⟨htokens, hending⟩ := Scan.mk.inj hscan
  have hforall : List.Forall₂ (fun t t' : Token => t'.fold = t.fold) (Scan.ofText text).tokens
      (Scan.ofText text').tokens := by
    rw [← List.forall₂_eq_eq_eq, List.forall₂_map_left_iff, List.forall₂_map_right_iff] at htokens
    exact htokens.flip
  have hcomplete : (∃ p, (Scan.ofText text).ending = .complete p) ↔
      ∃ p, (Scan.ofText text').ending = .complete p := by rw [hending]
  refine ⟨agree_of_forall₂ hforall (fun t t' hfold => ?_) fun t t' u u' ht hu => ?_, hcomplete⟩
  · obtain ⟨hkind, hvalue, -⟩ := Token.mk.inj hfold
    refine ⟨hkind, ?_⟩
    rw [Token.lower, Token.lower, ← lowerCase_foldText, hvalue, lowerCase_foldText]
  · obtain ⟨-, -, -, hstop⟩ := Token.mk.inj ht
    obtain ⟨-, -, hstart, -⟩ := Token.mk.inj hu
    rw [Token.touches, Token.touches, hstop, hstart]

end Letters

section Space

/-- Space that separates two tokens: at least one character. -/
structure IsGap (s : String) : Prop where
  nonempty : s ≠ ""
  space : ∀ c ∈ s.toList, isSpace c = true

theorem IsGap.toList_ne_nil {gap : String} (h : IsGap gap) : gap.toList ≠ [] :=
  mt String.toList_eq_nil_iff.1 h.nonempty

/-- No word and no run of comparators goes on behind space. -/
theorem IsGap.ends {gap : String} (h : IsGap gap) (behind : List Char) :
    EndsWord (gap.toList ++ behind) ∧ EndsRun (gap.toList ++ behind) := by
  obtain ⟨c, cs, hgap⟩ := List.exists_cons_of_ne_nil h.toList_ne_nil
  have hc : isSpace c = true := h.space c (by simp [hgap])
  rw [hgap, List.cons_append]
  refine ⟨endsWord_cons (by simp [isDelimiter, hc]) _, fun d hd => ?_⟩
  rw [← Option.some.inj hd]
  simp only [isSpace, Bool.or_eq_true, beq_iff_eq] at hc
  rcases hc with ((rfl | rfl) | rfl) | rfl <;> decide

theorem Ends.relocate {u : Cursor} {e : Ending} (h : Ends u e) (q : Position) :
    ∃ e', Ends ⟨u.rest, q⟩ e' ∧ ((∃ p, e' = .complete p) ↔ ∃ p, e = .complete p) := by
  cases h with
  | complete space => exact ⟨_, .complete space, iff_of_true ⟨_, rfl⟩ ⟨_, rfl⟩⟩
  | broken next =>
    obtain ⟨gap, mark, behind, hrest, hgap, hquote, hnone, -⟩ := Cursor.next_eq_error_iff.1 next
    exact ⟨_, .broken (Cursor.next_eq_error_iff.2
      ⟨gap, mark, behind, hrest, hgap, hquote, hnone, rfl, rfl⟩), iff_of_false nofun nofun⟩

/-- A text is cut in the same way from another place on. -/
theorem exists_scan_after (text : String) (done : List Token) (q : Position) :
    ∃ us e, Scan.after done ⟨text.toList, q⟩ = ⟨done.reverse ++ us, e⟩ ∧
      List.Forall₂ (Token.Shifted q.offset) (Scan.ofText text).tokens us ∧
      (∀ u ∈ us, q.offset ≤ u.start.offset) ∧
      ((∃ p, e = .complete p) ↔ ∃ p, (Scan.ofText text).ending = .complete p) := by
  obtain ⟨w, hreads, hends⟩ := scan_ofText_eq_iff.1 (Eq.refl (Scan.ofText text))
  have hq : q.offset = (Cursor.ofText text).position.offset + q.offset := (Nat.zero_add _).symm
  have hend : EndsWord [] ∧ EndsRun [] := ⟨nofun, nofun⟩
  obtain ⟨us, q', hreads', hshifted⟩ := hreads.relocate hend.1 hend.2 hq
  rw [List.append_nil, List.append_nil] at hreads'
  obtain ⟨e, hends', hcomplete⟩ := hends.relocate q'
  refine ⟨us, e, ?_, hshifted, hreads'.sorted.1, hcomplete⟩
  exact (hreads'.scan_after done).trans ((hends'.scan_after _).trans (by simp))

/-- Space between a text that is cut into tokens and more text keeps the tokens of both apart. -/
theorem exists_scan_spaced {front gap : String} {ts : List Token} {p : Position}
    (hfront : tokenize front = .ok (ts ++ [.endOfText p])) (hgap : IsGap gap) (behind : String) :
    ∃ us vs e k, Scan.ofText (front ++ gap ++ behind) = ⟨us ++ vs, e⟩ ∧
      List.Forall₂ (Token.Shifted 0) ts us ∧
      List.Forall₂ (Token.Shifted k) (Scan.ofText behind).tokens vs ∧
      (∀ t ∈ us, ∀ u ∈ vs, t.touches u = false) ∧
      ((∃ p, e = .complete p) ↔ ∃ p, (Scan.ofText behind).ending = .complete p) := by
  obtain ⟨w, hreads, hspace⟩ := reads_of_tokenize hfront
  obtain ⟨hword, hrun⟩ := hgap.ends behind.toList
  obtain ⟨us, q, hreads', hshifted⟩ :=
    hreads.relocate (p := .start) (k := 0) hword hrun rfl
  -- All space between the last token of the front and what is behind is passed over at once.
  have hpass : ∀ d ∈ w.rest ++ gap.toList, isSpace d = true :=
    List.forall_mem_append.2 ⟨hspace, hgap.space⟩
  have hnext := Cursor.next_append_of_isSpace hpass behind.toList q
  obtain ⟨vs, e, hscan, hshifted', hstart, hcomplete⟩ :=
    exists_scan_after behind (us.reverse ++ []) (q.after (w.rest ++ gap.toList))
  refine ⟨us, vs, e, _, ?_, hshifted, hshifted', fun t ht u hu => ?_, hcomplete⟩
  · have htext : (front ++ gap ++ behind).toList =
        (Cursor.ofText front).rest ++ (gap.toList ++ behind.toList) := by
      simp [Cursor.ofText]
    rw [Scan.ofText, Cursor.ofText, htext, hreads'.scan_after, ← List.append_assoc,
      scan_after_of_next_eq hnext, hscan, List.append_nil, List.reverse_reverse]
  · have hstop := hreads'.stop_le.2 t ht
    have hu := hstart u hu
    have hpos : 0 < byteLength (w.rest ++ gap.toList) := byteLength_pos (by simp [hgap.toList_ne_nil])
    rw [offset_after] at hu
    rw [Token.touches, beq_eq_false_iff_ne]
    dsimp only at hstop
    omega

/-- Tokens that are moved from the same places agree. -/
theorem agree_of_shifted {ts us us' : List Token} {k k' : Nat}
    (h : List.Forall₂ (Token.Shifted k) ts us) (h' : List.Forall₂ (Token.Shifted k') ts us') :
    Agree us us' := by
  have hjoin : List.Forall₂ (fun u u' => ∃ t : Token, t.Shifted k u ∧ t.Shifted k' u') us us' := by
    induction h generalizing us' with
    | nil =>
      cases h'
      exact .nil
    | cons head _ ih =>
      cases h' with
      | cons head' more' => exact .cons ⟨_, head, head'⟩ (ih more')
  refine agree_of_forall₂ hjoin ?_ ?_
  · rintro u u' ⟨t, h, h'⟩
    exact ⟨h'.echoes.kind.trans h.echoes.kind.symm, h'.echoes.lower.trans h.echoes.lower.symm⟩
  · rintro u u' v v' ⟨t, h, h'⟩ ⟨t', hv, hv'⟩
    rw [Bool.eq_iff_iff, Token.touches, Token.touches, beq_iff_eq, beq_iff_eq, h.stop, h'.stop,
      hv.start, hv'.start]
    omega

theorem agrees_of_gaps {front gap gap' : String} {ts : List Token} {p : Position}
    (hfront : tokenize front = .ok (ts ++ [.endOfText p])) (hgap : IsGap gap) (hgap' : IsGap gap')
    (behind : String) :
    (Scan.ofText (front ++ gap ++ behind)).Agrees (Scan.ofText (front ++ gap' ++ behind)) := by
  obtain ⟨us, vs, e, k, hscan, hus, hvs, hapart, hcomplete⟩ :=
    exists_scan_spaced hfront hgap behind
  obtain ⟨us', vs', e', k', hscan', hus', hvs', hapart', hcomplete'⟩ :=
    exists_scan_spaced hfront hgap' behind
  rw [hscan, hscan']
  exact ⟨(agree_of_shifted hus hus').append (agree_of_shifted hvs hvs') hapart hapart',
    hcomplete.trans hcomplete'.symm⟩

end Space

/-- Does the text differ from the other in the case of letters, or in space that separates two
tokens? What is in front of the space is cut into tokens, so the space is in no literal. -/
inductive Varies : String → String → Prop
  | letters {text text' : String} (same : sameIgnoringCase text text' = true) : Varies text text'
  | space {front gap gap' behind : String} {ts : List Token} {p : Position}
    (tokens : tokenize front = .ok (ts ++ [.endOfText p])) (separates : IsGap gap)
    (separates' : IsGap gap') :
    Varies (front ++ gap ++ behind) (front ++ gap' ++ behind)

section Text
variable {choice : ServerChoice} {text text' : String}

theorem Varies.agrees (h : Varies text text') :
    (Scan.ofText text).Agrees (Scan.ofText text') := by
  cases h with
  | letters same => exact agrees_of_sameIgnoringCase same
  | space tokens separates separates' => exact agrees_of_gaps tokens separates separates' _

def readTree? (choice : ServerChoice) (text : String) : Option (Node × Registry) :=
  (read choice text).toOption.map fun q => (q.root, q.registry)

theorem readTree?_eq_of_sameOutcome {ts us : List Token}
    (h : SameOutcome ts us (read choice text) (read choice text')) :
    readTree? choice text = readTree? choice text' := by
  rw [readTree?, readTree?]
  generalize read choice text = x at h ⊢
  generalize read choice text' = x' at h ⊢
  cases h with
  | accepted root registry =>
    rw [Except.toOption, Except.toOption, Option.map, Option.map, root, registry]
  | empty => rfl
  | refused => rfl

/-- No tree is read from a text with a literal that is never closed. -/
theorem readTree?_eq_none (h : ¬ ∃ p, (Scan.ofText text).ending = .complete p) :
    readTree? choice text = none := by
  rw [readTree?]
  cases hread : read choice text with
  | error fault => rfl
  | ok q =>
    obtain ⟨m, hm, -⟩ := means_of_read hread
    obtain ⟨ts, p, htokens, -⟩ := hm.derives
    exact absurd ⟨p, congrArg Scan.ending (tokenize_inv htokens)⟩ h

theorem Varies.readTree?_eq (h : Varies text text') :
    readTree? choice text = readTree? choice text' := by
  obtain ⟨hagree, hcomplete⟩ := h.agrees
  by_cases hp : ∃ p, (Scan.ofText text).ending = .complete p
  · obtain ⟨p, hp⟩ := hp
    obtain ⟨p', hp'⟩ := hcomplete.1 ⟨p, hp⟩
    exact readTree?_eq_of_sameOutcome
      (sameOutcome_of_agree (tokenize_eq_ok hp rfl) (tokenize_eq_ok hp' rfl) hagree)
  · rw [readTree?_eq_none hp, readTree?_eq_none (mt hcomplete.2 hp)]

/-- Two texts with tokens that agree are read alike, and so no change to the case of letters or to
the space between tokens that space separates, and no row of such changes, changes the tree. -/
theorem read_alike (choice : ServerChoice) (text text' : String) :
    (∀ ts us p p', tokenize text = .ok (ts ++ [.endOfText p]) →
      tokenize text' = .ok (us ++ [.endOfText p']) → Agree ts us →
      SameOutcome (ts ++ [.endOfText p]) (us ++ [.endOfText p']) (read choice text)
        (read choice text')) ∧
    (Relation.ReflTransGen Varies text text' →
      readTree? choice text = readTree? choice text') := by
  refine ⟨fun ts us p p' h h' hagree => sameOutcome_of_agree h h' hagree, fun h => ?_⟩
  induction h with
  | refl => rfl
  | tail _ hstep ih => exact ih.trans hstep.readTree?_eq

end Text

def plainText : String := "title <> 'fish' or b"

def spreadText : String := "TITLE <>\n\t'Fish' Or B"

def plainTokens : List Token :=
  [⟨.bareword, "title", ⟨1, 1, 0⟩, 5⟩, ⟨.comparator, "<>", ⟨1, 7, 6⟩, 8⟩,
    ⟨.quoted, "fish", ⟨1, 10, 9⟩, 15⟩, ⟨.bareword, "or", ⟨1, 17, 16⟩, 18⟩,
    ⟨.bareword, "b", ⟨1, 20, 19⟩, 20⟩]

def spreadTokens : List Token :=
  [⟨.bareword, "TITLE", ⟨1, 1, 0⟩, 5⟩, ⟨.comparator, "<>", ⟨1, 7, 6⟩, 8⟩,
    ⟨.quoted, "Fish", ⟨2, 2, 10⟩, 16⟩, ⟨.bareword, "Or", ⟨2, 9, 17⟩, 19⟩,
    ⟨.bareword, "B", ⟨2, 12, 20⟩, 21⟩]

theorem read_alike_spreadText :
    SameOutcome (plainTokens ++ [.endOfText ⟨1, 21, 20⟩]) (spreadTokens ++ [.endOfText ⟨2, 13, 21⟩])
      (read .standard plainText) (read .standard spreadText) ∧
    readTree? .standard plainText = readTree? .standard spreadText := by
  obtain ⟨hagree, hvaries⟩ := read_alike .standard plainText spreadText
  have htokens : tokenize plainText = .ok (plainTokens ++ [.endOfText ⟨1, 21, 20⟩]) := by
    decide +kernel
  have htokens' : tokenize spreadText = .ok (spreadTokens ++ [.endOfText ⟨2, 13, 21⟩]) := by
    decide +kernel
  refine ⟨hagree _ _ _ _ htokens htokens' ?_, hvaries ?_⟩
  · have hsame {t t' : Token} (hk : t'.kind = t.kind) (hl : t'.lower = t.lower) : t.Agrees t' :=
      ⟨hk, hl⟩
    exact .cons (hsame rfl (by decide)) (by decide) (.cons (hsame rfl (by decide)) (by decide)
      (.cons (hsame rfl (by decide)) (by decide) (.cons (hsame rfl (by decide)) (by decide)
        (.cons (hsame rfl (by decide)) nofun .nil))))
  · have hletters : Varies plainText "TITLE <> 'Fish' Or B" := .letters (by decide)
    have hfront : tokenize "TITLE <>" = .ok ([⟨.bareword, "TITLE", ⟨1, 1, 0⟩, 5⟩,
        ⟨.comparator, "<>", ⟨1, 7, 6⟩, 8⟩] ++ [.endOfText ⟨1, 9, 8⟩]) := by decide +kernel
    have hblank : IsGap " " := ⟨by decide, List.all_eq_true.1 (by decide)⟩
    have hbreak : IsGap "\n\t" := ⟨by decide, List.all_eq_true.1 (by decide)⟩
    have hspace : Varies ("TITLE <>" ++ " " ++ "'Fish' Or B")
        ("TITLE <>" ++ "\n\t" ++ "'Fish' Or B") := .space hfront hblank hbreak
    exact .tail (.single hletters) hspace

end ContextQuery.Cql
