import ContextQuery.Proofs.Cql.Scan

namespace ContextQuery.Cql

/-- Can the characters stand between the marks of a literal? They are pairs of a backslash and any
character, and other characters but the mark. -/
inductive IsBody (mark : Char) : List Char → Prop
  | nil : IsBody mark []
  | pair {c : Char} {cs : List Char} (more : IsBody mark cs) : IsBody mark ('\\' :: c :: cs)
  | plain {c : Char} {cs : List Char} (noEscape : c ≠ '\\') (noMark : c ≠ mark)
    (more : IsBody mark cs) : IsBody mark (c :: cs)

/-- Are the characters `taken`, where `behind` follows, a token that says this? -/
inductive IsLexeme : List Char → Content → List Char → Prop
  | openParen {behind : List Char} : IsLexeme ['('] (.openParen, "(") behind
  | closeParen {behind : List Char} : IsLexeme [')'] (.closeParen, ")") behind
  | slash {behind : List Char} : IsLexeme ['/'] (.slash, "/") behind
  | comparator {taken behind : List Char} (nonempty : taken ≠ [])
    (run : ∀ c ∈ taken, isComparatorChar c = true)
    (stop : ∀ c ∈ behind.head?, isComparatorChar c = false) :
    IsLexeme taken (.comparator, String.ofList taken) behind
  | literal {mark : Char} {body behind : List Char} (quote : isQuote mark = true)
    (inside : IsBody mark body) :
    IsLexeme (mark :: (body ++ [mark])) (.quoted, String.ofList body) behind
  | word {taken behind : List Char} (nonempty : taken ≠ [])
    (bare : ∀ c ∈ taken.head?, isQuote c = false) (run : ∀ c ∈ taken, isDelimiter c = false)
    (stop : ∀ c ∈ behind.head?, isDelimiter c = true) :
    IsLexeme taken (.bareword, String.ofList taken) behind

/-- Do the tokens part the characters `scanned`, which begin at the place `p`, where `rest` follows?
Each one covers a lexeme, they follow one another, and what none of them covers is space. -/
structure Parts (p : Position) (scanned rest : List Char) (ts : List Token) : Prop where
  lexemes : ∀ t ∈ ts, ∃ front taken behind, scanned = front ++ (taken ++ behind) ∧
    IsLexeme taken t.content (behind ++ rest) ∧ t.start = p.after front ∧
    t.stop = t.start.offset + byteLength taken
  ordered : ts.Pairwise fun t u => t.stop ≤ u.start.offset
  gaps : ∀ front c behind, scanned = front ++ c :: behind →
    (∀ t ∈ ts, ¬ (t.start.offset ≤ p.offset + byteLength front ∧
      p.offset + byteLength front < t.stop)) → isSpace c = true

/-- Do the tokens part the characters `front` of a text, and does a literal that is never closed
follow? -/
structure Breaks (text : List Char) (ts : List Token) (front : List Char) (mark : Char)
    (behind : List Char) : Prop where
  split : text = front ++ mark :: behind
  quote : isQuote mark = true
  parts : Parts .start front (mark :: behind) ts
  unclosed : ¬ ∃ body after, behind = body ++ mark :: after ∧ IsBody mark body

section Literal
variable {mark : Char} {cs body rest : List Char}

theorem quote_ne_backslash (h : isQuote mark = true) : mark ≠ '\\' := by
  rintro rfl
  revert h
  decide

theorem isBody_of_splitLiteral {escaped : Bool}
    (h : splitLiteral mark escaped cs = some (body, rest)) :
    IsBody mark (if escaped then '\\' :: body else body) := by
  induction cs generalizing escaped body with
  | nil => cases h
  | cons c cs ih =>
    rw [splitLiteral] at h
    split at h
    · next hc =>
      cases h
      rw [hc.2]
      exact .nil
    · next hc =>
      obtain ⟨⟨more, after⟩, hmore, he⟩ := Option.map_eq_some_iff.1 h
      cases he
      have hih := ih hmore
      cases escaped with
      | true =>
        rw [Bool.not_true, Bool.and_false] at hih
        exact .pair hih
      | false =>
        by_cases hb : c = '\\'
        · subst hb
          exact hih
        · rw [beq_false_of_ne hb, Bool.false_and] at hih
          exact .plain hb (fun hm => hc ⟨hm, rfl⟩) hih

theorem splitLiteral_of_isBody (hm : mark ≠ '\\') (h : IsBody mark body) :
    splitLiteral mark false (body ++ mark :: rest) = some (body, rest) := by
  induction h with
  | nil => simp [splitLiteral]
  | pair _ ih => simp [splitLiteral, ih, hm.symm]
  | plain noEscape noMark _ ih =>
    rw [List.cons_append, splitLiteral, if_neg fun h => noMark h.1, beq_false_of_ne noEscape,
      Bool.false_and, ih]
    rfl

/-- A literal is never closed if no body can be cut off in front of a mark. -/
theorem splitLiteral_eq_none_iff (hm : mark ≠ '\\') : splitLiteral mark false cs = none ↔
    ¬ ∃ body rest, cs = body ++ mark :: rest ∧ IsBody mark body := by
  constructor
  · rintro hnone ⟨body, rest, rfl, hbody⟩
    rw [splitLiteral_of_isBody hm hbody] at hnone
    cases hnone
  · intro h
    rw [Option.eq_none_iff_forall_ne_some]
    rintro ⟨body, rest⟩ hsome
    exact h ⟨body, rest, (splitLiteral_eq_some hsome).1, isBody_of_splitLiteral hsome⟩

end Literal

theorem isLexeme_iff_takes {taken behind : List Char} {k : Content} :
    IsLexeme taken k behind ↔ Takes taken k behind := by
  constructor
  · intro h
    cases h with
    | openParen => exact .punctuation rfl
    | closeParen => exact .punctuation rfl
    | slash => exact .punctuation rfl
    | comparator nonempty run stop =>
      obtain ⟨c, cs, rfl⟩ := List.exists_cons_of_ne_nil nonempty
      exact .comparator run stop
    | literal quote inside =>
      exact .literal quote (splitLiteral_of_isBody (quote_ne_backslash quote) inside)
    | word nonempty bare run stop =>
      obtain ⟨c, cs, rfl⟩ := List.exists_cons_of_ne_nil nonempty
      exact .word (bare c rfl) run stop
  · intro h
    cases h with
    | punctuation mark =>
      unfold punctuation? at mark
      split_ifs at mark with ho hc hs <;> cases mark
      · subst ho
        exact .openParen
      · subst hc
        exact .closeParen
      · subst hs
        exact .slash
    | comparator run stop => exact .comparator (List.cons_ne_nil _ _) run stop
    | literal quote closed => exact .literal quote (isBody_of_splitLiteral closed)
    | word bare run stop =>
      refine .word (List.cons_ne_nil _ _) (fun c hc => ?_) run stop
      rw [← Option.some.inj hc]
      exact bare

theorem Token.eq_at_iff {t : Token} {p : Position} {taken : List Char} :
    t = t.content.at p taken ↔ t.start = p ∧ t.stop = t.start.offset + byteLength taken := by
  obtain ⟨kind, value, start, stop⟩ := t
  simp only [Content.at, Token.content, Token.mk.injEq, true_and, offset_after]
  exact and_congr_right fun hstart => by rw [hstart]

section Bytes

theorem byteLength_append (cs ds : List Char) :
    byteLength (cs ++ ds) = byteLength cs + byteLength ds := by
  induction cs with
  | nil => exact (Nat.zero_add _).symm
  | cons c cs ih => rw [List.cons_append, byteLength, byteLength, ih, Nat.add_assoc]

theorem byteLength_pos {cs : List Char} (h : cs ≠ []) : 0 < byteLength cs := by
  obtain ⟨c, cs, rfl⟩ := List.exists_cons_of_ne_nil h
  exact Nat.add_pos_left c.utf8Size_pos _

theorem eq_nil_of_byteLength_append_le {cs ds : List Char}
    (h : byteLength (cs ++ ds) ≤ byteLength cs) : ds = [] := by
  by_contra hne
  have hpos := byteLength_pos hne
  rw [byteLength_append] at h
  omega

theorem byteLength_toList (s : String) : byteLength s.toList = s.utf8ByteSize := by
  have hcs (cs : List Char) : byteLength cs = (String.ofList cs).utf8ByteSize := by
    induction cs with
    | nil => rfl
    | cons c cs ih =>
      have hcons : String.ofList (c :: cs) = String.singleton c ++ String.ofList cs := by
        rw [← String.toList_inj, String.toList_append, String.toList_ofList, String.toList_ofList,
          String.toList_singleton, List.singleton_append]
      rw [hcons, String.utf8ByteSize_append, String.utf8ByteSize_singleton, byteLength, ih]
  rw [hcs, String.ofList_toList]

/-- Of two fronts of a text, the one with fewer bytes is in front of the other. -/
theorem exists_append_of_byteLength_le {a b c d : List Char} (h : a ++ b = c ++ d)
    (hle : byteLength a ≤ byteLength c) : ∃ e, c = a ++ e ∧ b = e ++ d := by
  rcases List.append_eq_append_iff.1 h with ⟨e, hc, hb⟩ | ⟨e, ha, hd⟩
  · exact ⟨e, hc, hb⟩
  · -- Then nothing stands between the two.
    rw [ha] at hle
    obtain rfl := eq_nil_of_byteLength_append_le hle
    exact ⟨[], by simp [ha], hd.symm⟩

theorem append_inj_of_byteLength_eq {a b c d : List Char} (h : a ++ b = c ++ d)
    (hlength : byteLength a = byteLength c) : a = c ∧ b = d := by
  obtain ⟨e, rfl, rfl⟩ := exists_append_of_byteLength_le h (Nat.le_of_eq hlength)
  obtain rfl := eq_nil_of_byteLength_append_le (Nat.le_of_eq hlength.symm)
  exact ⟨(List.append_nil a).symm, rfl⟩

end Bytes

section Parts
variable {p : Position} {scanned rest : List Char} {t : Token} {ts : List Token}

theorem parts_nil_iff : Parts p scanned rest [] ↔ ∀ c ∈ scanned, isSpace c = true := by
  constructor
  · intro h c hc
    obtain ⟨front, behind, rfl⟩ := List.append_of_mem hc
    exact h.gaps front c behind rfl nofun
  · exact fun h => ⟨nofun, .nil, fun front c behind hsplit _ => h c (by simp [hsplit])⟩

section Cons
variable {gap taken more : List Char}

theorem offset_of_eq_at (h : t = t.content.at (p.after gap) taken) :
    t.start.offset = p.offset + byteLength gap ∧
      t.stop = t.start.offset + byteLength taken ∧
      ((p.after gap).after taken).offset = t.stop := by
  obtain ⟨hstart, hstop⟩ := Token.eq_at_iff.1 h
  refine ⟨by rw [hstart, offset_after], hstop, ?_⟩
  rw [hstop, hstart, offset_after]

/-- What stands in front of the first token is space: no other begins there. -/
theorem Parts.isSpace_gap (h : Parts p (gap ++ (taken ++ more)) rest (t :: ts))
    (ht : t = t.content.at (p.after gap) taken) : ∀ c ∈ gap, isSpace c = true := by
  obtain ⟨hstart, hstop, -⟩ := offset_of_eq_at ht
  have hbehind := (List.pairwise_cons.1 h.ordered).1
  intro c hc
  obtain ⟨front, behind, rfl⟩ := List.append_of_mem hc
  rw [byteLength_append, byteLength] at hstart
  have hsize := c.utf8Size_pos
  refine h.gaps front c (behind ++ (taken ++ more)) (by simp) fun u hu hcovers => ?_
  rcases List.mem_cons.1 hu with rfl | hu
  · omega
  · have := hbehind u hu
    omega

/-- The other tokens part what is behind the first. -/
theorem Parts.tail (h : Parts p (gap ++ (taken ++ more)) rest (t :: ts))
    (ht : t = t.content.at (p.after gap) taken) :
    Parts ((p.after gap).after taken) more rest ts := by
  obtain ⟨hstart, hstop, hend⟩ := offset_of_eq_at ht
  obtain ⟨hbehind, hordered⟩ := List.pairwise_cons.1 h.ordered
  refine ⟨fun u hu => ?_, hordered, fun front c behind hsplit hfree => ?_⟩
  · obtain ⟨front, chars, behind, hsplit, hlexeme, hs, he⟩ :=
      h.lexemes u (List.mem_cons_of_mem t hu)
    have hle : byteLength (gap ++ taken) ≤ byteLength front := by
      have hfirst := hbehind u hu
      rw [hs, offset_after] at hfirst
      rw [byteLength_append]
      omega
    rw [← List.append_assoc] at hsplit
    obtain ⟨between, rfl, rfl⟩ := exists_append_of_byteLength_le hsplit hle
    refine ⟨between, chars, behind, rfl, hlexeme, ?_, he⟩
    rw [hs, Position.after_append, Position.after_append]
  · rw [hend] at hfree
    refine h.gaps (gap ++ (taken ++ front)) c behind (by simp [hsplit]) ?_
    rw [byteLength_append, byteLength_append]
    exact List.forall_mem_cons.2 ⟨by omega, fun u hu hcovers => hfree u hu (by omega)⟩

/-- The first of some tokens stands behind space, and the others part what is behind it. -/
theorem Parts.exists_first (h : Parts p scanned rest (t :: ts)) : ∃ gap taken more,
    scanned = gap ++ (taken ++ more) ∧ (∀ c ∈ gap, isSpace c = true) ∧
    IsLexeme taken t.content (more ++ rest) ∧ t = t.content.at (p.after gap) taken ∧
    Parts ((p.after gap).after taken) more rest ts := by
  obtain ⟨gap, taken, more, rfl, hlexeme, hplace⟩ := h.lexemes t List.mem_cons_self
  have ht := Token.eq_at_iff.2 hplace
  exact ⟨gap, taken, more, rfl, h.isSpace_gap ht, hlexeme, ht, h.tail ht⟩

/-- Tokens that part what is behind a token part it all with the token in front. -/
theorem Parts.cons (hspace : ∀ c ∈ gap, isSpace c = true)
    (hlexeme : IsLexeme taken t.content (more ++ rest))
    (ht : t = t.content.at (p.after gap) taken)
    (hmore : Parts ((p.after gap).after taken) more rest ts) :
    Parts p (gap ++ (taken ++ more)) rest (t :: ts) := by
  obtain ⟨hstart, hstop, hend⟩ := offset_of_eq_at ht
  refine ⟨List.forall_mem_cons.2
    ⟨⟨gap, taken, more, rfl, hlexeme, Token.eq_at_iff.1 ht⟩, fun u hu => ?_⟩,
    .cons (fun u hu => ?_) hmore.ordered, fun front c behind hsplit hfree => ?_⟩
  · obtain ⟨front, chars, behind, rfl, hlex, hs, he⟩ := hmore.lexemes u hu
    refine ⟨gap ++ (taken ++ front), chars, behind, by simp, hlex, ?_, he⟩
    rw [hs, Position.after_append, Position.after_append]
  · obtain ⟨front, -, -, -, -, hs, -⟩ := hmore.lexemes u hu
    rw [hs, offset_after, hend]
    exact Nat.le_add_right _ _
  · obtain ⟨hfirst, hothers⟩ := List.forall_mem_cons.1 hfree
    -- A byte that the first token does not cover is in front of it or behind it.
    rcases Nat.lt_or_ge (byteLength front) (byteLength gap) with hlt | hge
    · obtain ⟨e, rfl, he⟩ := exists_append_of_byteLength_le hsplit.symm (Nat.le_of_lt hlt)
      cases e with
      | nil => simp at hlt
      | cons d e =>
        obtain ⟨rfl, -⟩ := List.cons.inj he
        exact hspace c (by simp)
    · rw [← List.append_assoc] at hsplit
      have hle : byteLength (gap ++ taken) ≤ byteLength front := by
        rw [byteLength_append]
        omega
      obtain ⟨e, rfl, rfl⟩ := exists_append_of_byteLength_le hsplit hle
      refine hmore.gaps e c behind rfl fun u hu hcovers => hothers u hu ?_
      rw [hend] at hcovers
      rw [byteLength_append, byteLength_append]
      omega

end Cons

/-- Parted characters are read token by token up to the last space. -/
theorem exists_reads_of_parts (h : Parts p scanned rest ts) :
    ∃ u gap, Reads ⟨scanned ++ rest, p⟩ ts u ∧ (∀ c ∈ gap, isSpace c = true) ∧
      u.rest = gap ++ rest ∧ u.position.after gap = p.after scanned := by
  induction ts generalizing p scanned with
  | nil => exact ⟨⟨scanned ++ rest, p⟩, scanned, .nil _, parts_nil_iff.1 h, rfl, rfl⟩
  | cons t ts ih =>
    obtain ⟨front, taken, more, rfl, hspace, hlexeme, ht, hmore⟩ := h.exists_first
    obtain ⟨u, gap, hreads, hgap, hrest, hposition⟩ := ih hmore
    have htakes := isLexeme_iff_takes.1 hlexeme
    refine ⟨u, gap, .cons ?_ (kind_of_takes htakes) hreads, hgap, hrest, ?_⟩
    · have hnext := next_of_takes hspace htakes p
      rw [← ht] at hnext
      rw [List.append_assoc, List.append_assoc]
      exact hnext
    · rw [hposition, Position.after_append, Position.after_append]

/-- Tokens that are read one behind the other part what is in front of the rest. -/
theorem Reads.parts {s u : Cursor} {gap : List Char} (h : Reads s ts u)
    (hrest : u.rest = gap ++ rest) (hgap : ∀ c ∈ gap, isSpace c = true) :
    ∃ scanned, s.rest = scanned ++ rest ∧ Parts s.position scanned rest ts ∧
      s.position.after scanned = u.position.after gap := by
  induction h with
  | nil => exact ⟨gap, hrest, parts_nil_iff.2 hgap, rfl⟩
  | @cons s v u t ts hnext inner _ ih =>
    obtain ⟨more, hmore, hparts, hposition⟩ := ih hrest
    obtain ⟨front, taken, hcuts⟩ := (cuts_of_next hnext).resolve_right fun h => inner h.1
    have hlexeme := isLexeme_iff_takes.2 hcuts.takes
    rw [hmore] at hlexeme
    rw [hcuts.position] at hparts hposition
    refine ⟨front ++ (taken ++ more), ?_, ?_, ?_⟩
    · rw [hcuts.rest, hmore, List.append_assoc, List.append_assoc]
    · exact .cons hcuts.space hlexeme hcuts.token hparts
    · rw [Position.after_append, Position.after_append, hposition]

end Parts

/-- The next token is refused where a literal that is never closed follows some space, and then the
whole text has been read. -/
theorem Cursor.next_eq_error_iff {s v : Cursor} {fault : Fault} :
    s.next = (.error fault, v) ↔ ∃ gap mark behind, s.rest = gap ++ mark :: behind ∧
      (∀ c ∈ gap, isSpace c = true) ∧ isQuote mark = true ∧
      splitLiteral mark false behind = none ∧
      fault = ⟨.unterminatedLiteral, some (s.position.after gap)⟩ ∧
      v = ⟨[], s.position.after s.rest⟩ := by
  have hsplit : s.rest.takeWhile isSpace ++ s.rest.dropWhile isSpace = s.rest :=
    List.takeWhile_append_dropWhile
  constructor
  · intro h
    unfold Cursor.next at h
    dsimp only at h
    split at h
    · cases h
    · next c rest hcons =>
      have hdrop : s.rest.dropWhile isSpace = c :: rest := hcons
      unfold Cursor.tokenAt at h
      split at h
      · cases h
      · split at h
        · cases h
        · split at h
          · next hquote =>
            unfold Cursor.literal at h
            split at h
            · cases h
            · next hnone =>
              cases h
              have hend : (s.position.after (s.rest.takeWhile isSpace)).after
                  (s.rest.dropWhile isSpace) = s.position.after s.rest := by
                rw [← Position.after_append, hsplit]
              rw [hdrop] at hsplit
              exact ⟨_, c, rest, hsplit.symm, List.all_eq_true.1 List.all_takeWhile, hquote,
                hnone, rfl, congrArg (Cursor.mk []) hend⟩
          · cases h
  · rintro ⟨gap, mark, behind, hrest, hgap, hquote, hnone, rfl, rfl⟩
    obtain ⟨rest, p⟩ := s
    obtain rfl : rest = gap ++ mark :: behind := hrest
    rw [Cursor.next_append_of_isSpace hgap,
      Cursor.next_of_not_isSpace (isSpace_of_isQuote hquote), tokenAt_of_isQuote hquote,
      Cursor.literal, hnone, Position.after_append]

section Text
variable {text : String} {ts : List Token}

/-- Reading comes to the literal that is never closed, and then to the end of the text. -/
theorem Breaks.exists_next {front behind : List Char} {mark : Char}
    (h : Breaks text.toList ts front mark behind) : ∃ u, Reads (.ofText text) ts u ∧
      u.next = (.error ⟨.unterminatedLiteral, some (Position.start.after front)⟩,
        ⟨[], Position.start.after text.toList⟩) := by
  obtain ⟨u, gap, hreads, hgap, hrest, hposition⟩ := exists_reads_of_parts h.parts
  rw [← h.split] at hreads
  have hnone := (splitLiteral_eq_none_iff (quote_ne_backslash h.quote)).2 h.unclosed
  have hend : u.position.after u.rest = Position.start.after text.toList := by
    rw [hrest, Position.after_append, hposition, ← Position.after_append, ← h.split]
  refine ⟨u, hreads, Cursor.next_eq_error_iff.2
    ⟨gap, mark, behind, hrest, hgap, h.quote, hnone, ?_, ?_⟩⟩
  · rw [hposition]
  · rw [hend]

/-- A scan is complete exactly if its tokens part the whole text. -/
theorem scan_complete_iff {p : Position} : Scan.ofText text = ⟨ts, .complete p⟩ ↔
    Parts .start text.toList [] ts ∧ p = Position.start.after text.toList := by
  rw [scan_ofText_eq_iff]
  constructor
  · rintro ⟨u, hreads, hend⟩
    cases hend with
    | complete space =>
      obtain ⟨scanned, hscanned, hparts, hposition⟩ := hreads.parts (List.append_nil _).symm space
      obtain rfl : text.toList = scanned := hscanned.trans (List.append_nil _)
      exact ⟨hparts, hposition.symm⟩
  · rintro ⟨hparts, rfl⟩
    obtain ⟨u, gap, hreads, hgap, hrest, hposition⟩ := exists_reads_of_parts hparts
    rw [List.append_nil] at hreads hrest
    subst hrest
    exact ⟨u, hreads, hposition ▸ .complete hgap⟩

/-- A scan breaks off exactly at a literal that is never closed behind what its tokens part. -/
theorem scan_broken_iff {fault : Fault} : Scan.ofText text = ⟨ts, .broken fault⟩ ↔
    ∃ front mark behind, Breaks text.toList ts front mark behind ∧
      fault = ⟨.unterminatedLiteral, some (Position.start.after front)⟩ := by
  rw [scan_ofText_eq_iff]
  constructor
  · rintro ⟨u, hreads, hend⟩
    cases hend with
    | broken hnext =>
      obtain ⟨gap, mark, behind, hrest, hgap, hquote, hnone, rfl, -⟩ :=
        Cursor.next_eq_error_iff.1 hnext
      obtain ⟨front, hsplit, hparts, hposition⟩ := hreads.parts hrest hgap
      have hunclosed := (splitLiteral_eq_none_iff (quote_ne_backslash hquote)).1 hnone
      exact ⟨front, mark, behind, ⟨hsplit, hquote, hparts, hunclosed⟩, by rw [← hposition]; rfl⟩
  · rintro ⟨front, mark, behind, h, rfl⟩
    obtain ⟨u, hreads, hnext⟩ := h.exists_next
    exact ⟨u, hreads, .broken hnext⟩

theorem Breaks.unique {ts' : List Token} {front behind front' behind' : List Char}
    {mark mark' : Char} (h : Breaks text.toList ts front mark behind)
    (h' : Breaks text.toList ts' front' mark' behind') :
    ts = ts' ∧ front = front' ∧ mark = mark' ∧ behind = behind' := by
  have hscan := scan_broken_iff.2 ⟨front, mark, behind, h, rfl⟩
  have hscan' := scan_broken_iff.2 ⟨front', mark', behind', h', rfl⟩
  obtain ⟨hts, hending⟩ := Scan.mk.inj (hscan.symm.trans hscan')
  have hbytes : byteLength front = byteLength front' := by
    have hplace := congrArg Position.offset
      (Option.some.inj (Fault.mk.inj (Ending.broken.inj hending)).2)
    simpa only [offset_after, Nat.add_left_cancel_iff] using hplace
  obtain ⟨hfront, hbehind⟩ :=
    append_inj_of_byteLength_eq (h.split.symm.trans h'.split) hbytes
  obtain ⟨hmark, hrest⟩ := List.cons.inj hbehind
  exact ⟨hts, hfront, hmark, hrest⟩

/-- A text has tokens if some part it, and is refused at the mark of a literal that is never closed
if some part what is in front of one; there is no more than one way to do either. After the refusal
the whole text has been read. -/
theorem tokenize_parts (text : String) :
    (∀ ts, tokenize text = .ok ts ↔ ∃ inner, Parts .start text.toList [] inner ∧
      ts = inner ++ [.endOfText (Position.start.after text.toList)]) ∧
    (Position.start.after text.toList).offset = text.utf8ByteSize ∧
    (∀ ts ts', Parts .start text.toList [] ts → Parts .start text.toList [] ts' → ts = ts') ∧
    (∀ fault, tokenize text = .error fault ↔ ∃ ts front mark behind,
      Breaks text.toList ts front mark behind ∧
        fault = ⟨.unterminatedLiteral, some (Position.start.after front)⟩) ∧
    (∀ ts front mark behind ts' front' mark' behind', Breaks text.toList ts front mark behind →
      Breaks text.toList ts' front' mark' behind' →
        ts = ts' ∧ front = front' ∧ mark = mark' ∧ behind = behind') ∧
    ∀ ts front mark behind, Breaks text.toList ts front mark behind →
      ∃ u v, Reads (.ofText text) ts u ∧
        u.next = (.error ⟨.unterminatedLiteral, some (Position.start.after front)⟩, v) ∧
        v.next = (.ok (.endOfText (Position.start.after text.toList)), v) := by
  refine ⟨fun ts => ?_, ?_, fun ts ts' h h' => ?_, fun fault => ?_, ?_, ?_⟩
  · simp only [tokenize_eq_ok_iff, scan_complete_iff, and_assoc, exists_and_left, exists_eq_left]
  · rw [offset_after, byteLength_toList]
    exact Nat.zero_add _
  · have hscan := scan_complete_iff.2 ⟨h, rfl⟩
    exact (Scan.mk.inj (hscan.symm.trans (scan_complete_iff.2 ⟨h', rfl⟩))).1
  · simp only [tokenize_eq_error_iff, scan_broken_iff]
  · exact fun _ _ _ _ _ _ _ _ h h' => h.unique h'
  · intro ts front mark behind h
    obtain ⟨u, hreads, hnext⟩ := h.exists_next
    exact ⟨u, _, hreads, hnext, Cursor.next_of_space nofun⟩

end Text

def unclosedText : String := "title= \"fish\\\""

def unclosedTail : List Char := ['f', 'i', 's', 'h', '\\', '"']

theorem breaks_unclosedText : Breaks unclosedText.toList
    [⟨.bareword, "title", ⟨1, 1, 0⟩, 5⟩, ⟨.comparator, "=", ⟨1, 6, 5⟩, 6⟩]
    ['t', 'i', 't', 'l', 'e', '=', ' '] '"' unclosedTail where
  split := rfl
  quote := rfl
  parts := by
    have hspace : Parts ⟨1, 7, 6⟩ [' '] ('"' :: unclosedTail) [] :=
      parts_nil_iff.2 (by simp [isSpace])
    have hsign : IsLexeme ['='] (.comparator, "=") ([' '] ++ '"' :: unclosedTail) :=
      .comparator (by simp) (by simp [isComparatorChar]) (by simp [isComparatorChar])
    have htitle : IsLexeme ['t', 'i', 't', 'l', 'e'] (.bareword, "title")
        (['=', ' '] ++ '"' :: unclosedTail) :=
      .word (by simp) (by simp [isQuote])
        (by simp [isDelimiter, punctuation?, isComparatorChar, isSpace])
        (by simp [isDelimiter, punctuation?, isComparatorChar])
    have hbehind : Parts ⟨1, 6, 5⟩ ([] ++ (['='] ++ [' '])) ('"' :: unclosedTail)
        [⟨.comparator, "=", ⟨1, 6, 5⟩, 6⟩] := .cons (List.forall_mem_nil _) hsign rfl hspace
    have hall : Parts ⟨1, 1, 0⟩ ([] ++ (['t', 'i', 't', 'l', 'e'] ++ ['=', ' ']))
        ('"' :: unclosedTail)
        [⟨.bareword, "title", ⟨1, 1, 0⟩, 5⟩, ⟨.comparator, "=", ⟨1, 6, 5⟩, 6⟩] :=
      .cons (List.forall_mem_nil _) htitle rfl hbehind
    exact hall
  unclosed := (splitLiteral_eq_none_iff (by decide)).1 (by decide)

theorem tokenize_parts_unclosedText :
    tokenize unclosedText = .error ⟨.unterminatedLiteral, some ⟨1, 8, 7⟩⟩ ∧
      ∃ u v : Cursor, u.next = (.error ⟨.unterminatedLiteral, some ⟨1, 8, 7⟩⟩, v) ∧
        v.next = (.ok (.endOfText ⟨1, 15, 14⟩), v) := by
  obtain ⟨-, -, -, hfault, -, hend⟩ := tokenize_parts unclosedText
  obtain ⟨u, v, -, hu, hv⟩ := hend _ _ _ _ breaks_unclosedText
  exact ⟨(hfault _).2 ⟨_, _, _, _, breaks_unclosedText, rfl⟩, u, v, hu, hv⟩

end ContextQuery.Cql
