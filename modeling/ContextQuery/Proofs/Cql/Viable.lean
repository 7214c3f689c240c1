import ContextQuery.Proofs.Cql.Agreement
import ContextQuery.Proofs.Cql.Completion

namespace ContextQuery.Cql
open Text

section Blank
variable {ts place : List Token}

theorem Token.IsBlank.operator?_eq_none {t : Token} (h : t.IsBlank) : t.operator? = none := by
  rw [Token.operator?, if_pos h.kind, BooleanOp.ofKeyword?, BooleanOp.ofExactKeyword?,
    List.find?_eq_none]
  intro op _ hkeyword
  have hblank : isBlankText (lowerCase t.value) = true := by
    rw [isBlankText_lowerCase]
    exact h.value
  rw [← beq_iff_eq.1 hkeyword] at hblank
  cases op <;> revert hblank <;> decide

theorem Token.IsBlank.isRelation {t : Token} (h : t.IsBlank) : t.isRelation = true := by
  simp [Token.isRelation, Token.isWord, Token.isKeyword, h.kind, h.operator?_eq_none]

/-- Are the tokens up to the one at the place, and that one, words of white space? -/
def BlankThrough (ts place : List Token) : Prop :=
  ∃ front t more, ts = front ++ t :: more ∧ place = t :: more ∧ ∀ u ∈ front ++ [t], u.IsBlank

namespace BlankThrough

theorem head {t : Token} (h : BlankThrough (t :: ts) place) : t.IsBlank := by
  obtain ⟨front, u, more, hts, -, hblank⟩ := h
  cases front with
  | nil =>
    obtain ⟨rfl, -⟩ := List.cons.inj hts
    exact hblank t List.mem_cons_self
  | cons v front =>
    obtain ⟨rfl, -⟩ := List.cons.inj hts
    exact hblank t List.mem_cons_self

theorem of_suffix {mid : List Token} (h : BlankThrough ts place) (hmid : mid <:+ ts)
    (hplace : place <:+ mid) : BlankThrough mid place := by
  obtain ⟨front, t, more, rfl, rfl, hblank⟩ := h
  obtain ⟨behind, rfl⟩ := hplace
  obtain ⟨before, hbefore⟩ := hmid
  rw [← List.append_assoc] at hbefore
  obtain rfl := List.append_cancel_right hbefore
  refine ⟨behind, t, more, rfl, rfl, fun u hu => hblank u ?_⟩
  rw [List.append_assoc]
  exact List.mem_append_right before hu

theorem ne_nil (h : BlankThrough ts []) : False := by
  obtain ⟨front, t, more, -, hplace, -⟩ := h
  cases hplace

end BlankThrough

/-- No query and no clause ends in front of a word of white space: behind another such word it is a
relation. -/
theorem Derives.exists_chain_of_blank {phrase : Phrase} {scope : Scope} {r : Registry} {m : Meaning}
    (h : Derives phrase scope r ts m place) (hblank : BlankThrough ts place) :
    ∃ left, phrase = .chain left := by
  induction h with
  | query clause chain ihf =>
    cases chain with
    | stop => exact nomatch ihf hblank
    | operator keyword modifiers operand chain =>
      have hafter := (chain.suffix.trans operand.suffix).trans modifiers.suffix
      have hmid := hblank.of_suffix clause.suffix (hafter.trans (List.suffix_cons _ _))
      rw [hmid.head.operator?_eq_none] at keyword
      cases keyword
  | stop | operator => exact ⟨_, rfl⟩
  | group opens => exact nomatch hblank.head.kind.symm.trans opens
  | @term _ _ t rest _ stop =>
    cases rest with
    | nil => exact hblank.ne_nil.elim
    | cons u rest =>
      have hu := hblank.of_suffix (List.suffix_cons t _) (List.suffix_refl _)
      exact nomatch hu.head.isRelation.symm.trans (stop u rfl)
  | indexed _ _ modifiers clause ih =>
    exact nomatch ih (hblank.of_suffix (modifiers.suffix.trans (List.suffix_append [_, _] _))
      clause.suffix)
  | declaration mark =>
    cases hblank.head.kind.symm.trans (Token.isComparator_iff.1 mark).1

/-- At a word of white space behind no other tokens, a text is refused for its depth alone. -/
theorem Refuses.nestedTooDeeply_of_blank {n : Nat} {phrase : Phrase} {scope : Scope} {r : Registry}
    {cause : Cause} (h : Refuses n phrase scope r ts cause place) (hblank : BlankThrough ts place) :
    cause = .nestedTooDeeply := by
  have hkeyword {t : Token} {ts : List Token} {op : BooleanOp} (hb : BlankThrough (t :: ts) place)
      (hop : t.operator? = some op) : False := by
    rw [hb.head.operator?_eq_none] at hop
    cases hop
  induction h with
  | first _ ih => exact ih hblank hkeyword
  | further clause _ chain ih => exact ih (hblank.of_suffix clause.suffix chain.suffix) hkeyword
  | operator keyword => exact (hkeyword hblank keyword).elim
  | operand keyword => exact (hkeyword hblank keyword).elim
  | chain keyword => exact (hkeyword hblank keyword).elim
  | height | nesting => rfl
  | endOfText => exact hblank.ne_nil.elim
  | start _ noWord => simp [Token.isWord, hblank.head.kind] at noWord
  | group opens => cases hblank.head.kind.symm.trans opens
  | unclosed opens => cases hblank.head.kind.symm.trans opens
  | relation _ _ modifiers =>
    have hslash := hblank.of_suffix (List.suffix_append [_, _] _) modifiers.suffix
    cases modifiers with
    | name mark => cases hslash.head.kind.symm.trans mark
    | value mark => cases hslash.head.kind.symm.trans mark
    | flag mark => cases hslash.head.kind.symm.trans mark
    | comparison mark => cases hslash.head.kind.symm.trans mark
  | indexed _ _ modifiers clause ih =>
    exact ih (hblank.of_suffix (modifiers.suffix.trans (List.suffix_append [_, _] _))
      clause.suffix) hkeyword
  | declaration mark =>
    cases hblank.head.kind.symm.trans (Token.isComparator_iff.1 mark).1
  | declared mark =>
    cases hblank.head.kind.symm.trans (Token.isComparator_iff.1 mark).1

end Blank

/-- The tokens that a scan gives one by one, the end of the text among them if it gets there. -/
def Scan.shown (s : Scan) : List Token :=
  match s.ending with
  | .complete p => s.tokens ++ [.endOfText p]
  | .broken _ => s.tokens

section Shown
variable {text : String} {ts front : List Token} {e : Ending} {t : Token}

theorem kind_of_reads {s u : Cursor} (h : Reads s ts u) : ∀ t ∈ ts, t.kind ≠ .endOfText := by
  induction h with
  | nil => exact nofun
  | cons _ inner _ ih => exact List.forall_mem_cons.2 ⟨inner, ih⟩

theorem kind_of_scan (hscan : Scan.ofText text = ⟨ts, e⟩) : ∀ t ∈ ts, t.kind ≠ .endOfText := by
  obtain ⟨u, hreads, -⟩ := scan_ofText_eq_iff.1 hscan
  exact kind_of_reads hreads

/-- What is shown first is found first by the scan, but for the end of the text. -/
theorem prefix_of_shown (hscan : Scan.ofText text = ⟨ts, e⟩)
    (h : front ++ [t] <+: (Scan.ofText text).shown) :
    front ++ [t] <+: ts ∨ ∃ p, e = .complete p ∧ ts = front ∧ t = .endOfText p := by
  rw [hscan, Scan.shown] at h
  cases e with
  | broken fault => exact .inl h
  | complete p =>
    refine (List.prefix_concat_iff.1 h).symm.imp id fun hall => ?_
    obtain ⟨rfl, ht⟩ := List.append_inj' hall rfl
    exact ⟨p, rfl, rfl, List.singleton_inj.1 ht⟩

theorem exists_of_shown_token (hscan : Scan.ofText text = ⟨ts, e⟩) (ht : t.kind ≠ .endOfText)
    (h : front ++ [t] <+: (Scan.ofText text).shown) : ∃ more, ts = front ++ t :: more := by
  rcases prefix_of_shown hscan h with ⟨more, rfl⟩ | ⟨p, -, -, rfl⟩
  · exact ⟨more, by simp⟩
  · exact absurd rfl ht

theorem scan_of_shown_end {p : Position}
    (h : front ++ [.endOfText p] <+: (Scan.ofText text).shown) :
    Scan.ofText text = ⟨front, .complete p⟩ := by
  generalize hscan : Scan.ofText text = scan at h
  obtain ⟨ts, e⟩ := scan
  rw [← hscan] at h
  rcases prefix_of_shown hscan h with hfront | ⟨q, rfl, rfl, hend⟩
  · exact absurd rfl (kind_of_scan hscan (.endOfText p) (hfront.subset (by simp)))
  · obtain rfl : p = q := (Token.mk.inj hend).2.2.1
    rfl

end Shown

section Text
variable {choice : ServerChoice} {text text' : String} {scope : Scope} {cause : Cause}
  {ts place : List Token} {e : Ending}

theorem RefusesText.stays (h : RefusesText scope ts cause place)
    (hdeep : cause ≠ .nestedTooDeeply) :
    ∃ front, ts = front ++ place ∧ ∀ place', place'.head? = place.head? →
      RefusesText scope (front ++ place') cause place' := by
  cases h with
  | query query =>
    obtain ⟨front, rfl, hquery⟩ := query.stays hdeep
    exact ⟨front, rfl, fun place' hhead => .query (hquery place' hhead)⟩
  | rest query fits =>
    obtain ⟨front, rfl, hquery⟩ := query.follow
    refine ⟨front, rfl, fun place' hhead => ?_⟩
    obtain ⟨more, rfl⟩ := List.head?_eq_some_iff.1 hhead
    exact .rest (hquery _ (.inl rfl)) fits

/-- What is in front of the token at which a text is refused is completed to a query. -/
theorem RefusesText.completes (h : RefusesText scope ts cause place)
    (hdeep : cause ≠ .nestedTooDeeply) :
    ∃ front ks, ts = front ++ place ∧ (∀ k ∈ ks, IsFiller k) ∧
      ∀ us, us.map Token.content = ks →
        ∃ m, Derives .query scope .seeded (front ++ us) m [] := by
  cases h with
  | query query =>
    obtain ⟨front, ks, rfl, hks, hquery⟩ := query.completes hdeep
    refine ⟨front, ks, rfl, hks, fun us hus => ?_⟩
    obtain ⟨m, hm⟩ := hquery us [] hus nofun
    rw [List.append_nil] at hm
    exact ⟨m, hm⟩
  | rest query fits =>
    obtain ⟨front, rfl, hquery⟩ := query.follow
    refine ⟨front, [], rfl, nofun, fun us hus => ?_⟩
    obtain rfl := List.map_eq_nil_iff.1 hus
    exact ⟨_, hquery [] (.inr nofun)⟩

theorem RefusesText.nestedTooDeeply_of_blank (h : RefusesText scope ts cause place)
    (hblank : BlankThrough ts place) : cause = .nestedTooDeeply := by
  cases h with
  | query query => exact query.nestedTooDeeply_of_blank hblank
  | rest query => exact nomatch query.exists_chain_of_blank hblank

/-- A text that has the same tokens up to the one that is refused is not blank. -/
theorem isBlankText_of_head?_eq {front : List Token}
    (h : RefusesText scope (front ++ place) cause place) (hb : isBlankText text = false)
    (hscan : Scan.ofText text = ⟨front ++ place, e⟩) (hview : e.view place = .ok ())
    (hdeep : cause ≠ .nestedTooDeeply) {place' : List Token} {e' : Ending}
    (hscan' : Scan.ofText text' = ⟨front ++ place', e'⟩) (hhead : place'.head? = place.head?) :
    isBlankText text' = false := by
  rw [Bool.eq_false_iff]
  intro hb'
  rw [isBlankText_iff, hscan'] at hb'
  obtain ⟨-, hblank⟩ := hb'
  cases place with
  | nil =>
    cases e with
    | broken fault => cases hview
    | complete p =>
      -- Then the other text is all that this one is, and this one is not blank.
      obtain rfl := List.head?_eq_none_iff.1 hhead
      rw [← Bool.not_eq_true, isBlankText_iff, hscan] at hb
      exact hb ⟨⟨p, rfl⟩, hblank⟩
  | cons t place =>
    obtain ⟨more, rfl⟩ := List.head?_eq_some_iff.1 hhead
    have hthrough : ∀ u ∈ front ++ [t], u.IsBlank := fun u hu => hblank u (by
      rw [List.append_cons]
      exact List.mem_append_left more hu)
    exact hdeep (h.nestedTooDeeply_of_blank ⟨front, t, place, rfl, rfl, hthrough⟩)

/-- Some text has the tokens in front of a refusal in front and is a query. -/
theorem RefusesText.exists_sentence {front : List Token}
    (h : RefusesText scope (front ++ place) cause place)
    (hscan : Scan.ofText text = ⟨front ++ place, e⟩) (hdeep : cause ≠ .nestedTooDeeply) :
    ∃ text' more p m, tokenize text' = .ok (front ++ more ++ [.endOfText p]) ∧
      Derives .query scope .seeded (front ++ more) m [] := by
  obtain ⟨front', ks, hts, hks, hcompletes⟩ := h.completes hdeep
  obtain rfl := List.append_cancel_right hts
  obtain ⟨text', us, p, htokens, hus⟩ := exists_tokenize_fillers hscan hks
  obtain ⟨m, hm⟩ := hcompletes us hus
  exact ⟨text', us, p, m, htokens, hm⟩

/-- A text is refused as another one is that has the same tokens up to the place. -/
theorem RefusesText.read_of_head?_eq {front : List Token}
    (h : RefusesText (.ofChoice choice) (front ++ place) cause place)
    (hb : isBlankText text = false) (hscan : Scan.ofText text = ⟨front ++ place, e⟩)
    (hview : e.view place = .ok ()) (hdeep : cause ≠ .nestedTooDeeply) {place' : List Token}
    {e' : Ending} (hscan' : Scan.ofText text' = ⟨front ++ place', e'⟩)
    (hhead : place'.head? = place.head?) (hview' : e'.view place' = .ok ()) :
    read choice text' = .error (e'.faultAt place' cause) := by
  obtain ⟨front', hts, hstays⟩ := h.stays hdeep
  obtain rfl := List.append_cancel_right hts
  have hb' := isBlankText_of_head?_eq h hb hscan hview hdeep hscan' hhead
  exact read_of_refusesText hb' hscan' (hstays place' hhead) hview' fun hnested =>
    absurd hnested hdeep

/-- A text that is refused, but not for its depth or for a literal without an end, is refused at the
first token that no query can have there: the tokens in front of it are completed to a query by some
text, and every text with these tokens and this one in front is refused for the same cause in the
same place. -/
theorem refused_at_first_offender {fault : Fault} (hb : isBlankText text = false)
    (h : read choice text = .error fault) (hdeep : fault.cause ≠ .nestedTooDeeply)
    (hopen : fault.cause ≠ .unterminatedLiteral) :
    ∃ front t, front ++ [t] <+: (Scan.ofText text).shown ∧ fault.position = some t.start ∧
      (∃ text' more p m, tokenize text' = .ok (front ++ more ++ [.endOfText p]) ∧
        Derives .query (.ofChoice choice) .seeded (front ++ more) m []) ∧
      ∀ text', front ++ [t] <+: (Scan.ofText text').shown → read choice text' = .error fault := by
  have hexplains := explains_of_read hb h
  generalize hscan : Scan.ofText text = scan at hexplains
  obtain ⟨ts, e⟩ := scan
  rcases hexplains with hbroken | ⟨cause, place, hrefuses, hview, rfl⟩
  · obtain ⟨front, mark, behind, -, rfl⟩ :=
      scan_broken_iff.1 (hscan.trans (congrArg (Scan.mk ts) hbroken))
    exact absurd rfl hopen
  have hcause : (e.faultAt place cause).cause = cause := by cases place <;> rfl
  rw [hcause] at hdeep
  obtain ⟨front, rfl⟩ := hrefuses.suffix
  have hsentence := hrefuses.exists_sentence hscan hdeep
  cases place with
  | cons t place =>
    have ht : t.kind ≠ .endOfText := kind_of_scan hscan t (by simp)
    refine ⟨front, t, ?_, rfl, hsentence, fun text' hshown => ?_⟩
    · rw [Scan.shown]
      cases e <;> simp
    · generalize hscan' : Scan.ofText text' = scan' at hshown
      obtain ⟨ts', e'⟩ := scan'
      rw [← hscan'] at hshown
      obtain ⟨more, rfl⟩ := exists_of_shown_token hscan' ht hshown
      have hread : read choice text' = .error (e'.faultAt (t :: more) cause) :=
        hrefuses.read_of_head?_eq hb hscan hview hdeep hscan' rfl (view_cons _ _)
      exact hread
  | nil =>
    cases e with
    | broken fault => cases hview
    | complete p =>
      refine ⟨front, .endOfText p, ?_, rfl, hsentence, fun text' hshown => ?_⟩
      · simp [Scan.shown]
      · have hscan' := scan_of_shown_end hshown
        rw [← List.append_nil front] at hscan'
        exact hrefuses.read_of_head?_eq hb hscan hview hdeep hscan' rfl rfl

end Text

def namelessText : String := "a and/ (b 'c"

def namelessFault : Fault := ⟨.invalidModifier, some ⟨1, 8, 7⟩⟩

theorem refused_at_first_offender_namelessText :
    read .standard namelessText = .error namelessFault ∧
      ∃ front t, front ++ [t] <+: (Scan.ofText namelessText).shown ∧ t.start = ⟨1, 8, 7⟩ ∧
        (∃ text' more p m, tokenize text' = .ok (front ++ more ++ [.endOfText p]) ∧
          Derives .query (.ofChoice .standard) .seeded (front ++ more) m []) ∧
        ∀ text', front ++ [t] <+: (Scan.ofText text').shown →
          read .standard text' = .error namelessFault := by
  have hfails : (read .standard namelessText).bind (fun _ => .ok ()) = .error namelessFault := by
    decide +kernel
  have h : read .standard namelessText = .error namelessFault :=
    (bind_eq_error_iff.1 hfails).resolve_right fun ⟨_, _, hok⟩ => nomatch hok
  obtain ⟨front, t, hshown, hposition, hviable, hsame⟩ :=
    refused_at_first_offender (by decide) h (by decide) (by decide)
  exact ⟨h, front, t, hshown, (Option.some.inj hposition).symm, hviable, hsame⟩

end ContextQuery.Cql
