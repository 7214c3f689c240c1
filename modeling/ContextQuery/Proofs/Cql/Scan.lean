import ContextQuery.Cql.Scan
import ContextQuery.Proofs.Lists

namespace ContextQuery.Cql

abbrev Content := TokenKind × String

def Token.content (t : Token) : Content := (t.kind, t.value)

def Content.at (k : Content) (p : Position) (taken : List Char) : Token :=
  ⟨k.1, k.2, p, (p.after taken).offset⟩

def EndsWord (rest : List Char) : Prop := ∀ c ∈ rest.head?, isDelimiter c = true

def EndsRun (rest : List Char) : Prop := ∀ c ∈ rest.head?, isComparatorChar c = false

/-- The token in front of `rest` takes these characters and says this. -/
inductive Takes : List Char → Content → List Char → Prop
  | punctuation {c : Char} {kind : TokenKind} {rest : List Char}
    (mark : punctuation? c = some kind) : Takes [c] (kind, String.singleton c) rest
  | comparator {c : Char} {cs rest : List Char} (run : ∀ d ∈ c :: cs, isComparatorChar d = true)
    (stop : EndsRun rest) : Takes (c :: cs) (.comparator, String.ofList (c :: cs)) rest
  | literal {mark : Char} {body rest : List Char} (quote : isQuote mark = true)
    (closed : splitLiteral mark false (body ++ [mark]) = some (body, [])) :
    Takes (mark :: (body ++ [mark])) (.quoted, String.ofList body) rest
  | word {c : Char} {cs rest : List Char} (bare : isQuote c = false)
    (run : ∀ d ∈ c :: cs, isDelimiter d = false) (stop : EndsWord rest) :
    Takes (c :: cs) (.bareword, String.ofList (c :: cs)) rest

theorem splitLiteral_append {mark : Char} {escaped : Bool} {cs body rest : List Char}
    (h : splitLiteral mark escaped cs = some (body, rest)) (more : List Char) :
    splitLiteral mark escaped (cs ++ more) = some (body, rest ++ more) := by
  induction cs generalizing escaped body with
  | nil => cases h
  | cons c cs ih =>
    rw [splitLiteral] at h
    rw [List.cons_append, splitLiteral]
    split
    · next hc =>
      rw [if_pos hc] at h
      cases h
      rfl
    · next hc =>
      rw [if_neg hc] at h
      obtain ⟨p, hp, he⟩ := Option.map_eq_some_iff.1 h
      cases he
      rw [ih hp]
      rfl

/-- A literal is the text up to its closing mark, and it is closed by that mark alone. -/
theorem splitLiteral_eq_some {mark : Char} {escaped : Bool} {cs body rest : List Char}
    (h : splitLiteral mark escaped cs = some (body, rest)) :
    cs = body ++ mark :: rest ∧ splitLiteral mark escaped (body ++ [mark]) = some (body, []) := by
  induction cs generalizing escaped body with
  | nil => cases h
  | cons c cs ih =>
    rw [splitLiteral] at h
    split at h
    · next hc =>
      cases h
      obtain ⟨rfl, rfl⟩ := hc
      exact ⟨rfl, by simp [splitLiteral]⟩
    · next hc =>
      obtain ⟨p, hp, he⟩ := Option.map_eq_some_iff.1 h
      cases he
      obtain ⟨rfl, hclosed⟩ := ih hp
      refine ⟨rfl, ?_⟩
      rw [List.cons_append, splitLiteral, if_neg hc, hclosed]
      rfl

def byteLength : List Char → Nat
  | [] => 0
  | c :: cs => c.utf8Size + byteLength cs

theorem offset_advance (p : Position) (c : Char) :
    (p.advance c).offset = p.offset + c.utf8Size := by
  rw [Position.advance]
  split <;> rfl

theorem offset_after (p : Position) (cs : List Char) :
    (p.after cs).offset = p.offset + byteLength cs := by
  induction cs generalizing p with
  | nil => rfl
  | cons c cs ih =>
    change ((p.advance c).after cs).offset = _
    rw [ih, offset_advance, byteLength, Nat.add_assoc]

namespace Cursor

theorem next_of_not_isSpace {c : Char} (hc : isSpace c = false) (rest : List Char) (p : Position) :
    (Cursor.mk (c :: rest) p).next = (Cursor.mk (c :: rest) p).tokenAt c rest := by
  simp [next, skipWhile, hc, Position.after]

theorem next_of_isSpace {c : Char} (hc : isSpace c = true) (rest : List Char) (p : Position) :
    (Cursor.mk (c :: rest) p).next = (Cursor.mk rest (p.advance c)).next := by
  simp [next, skipWhile, hc, Position.after]

/-- The space in front of a token belongs to none. -/
theorem next_append_of_isSpace {gap : List Char} (h : ∀ c ∈ gap, isSpace c = true)
    (rest : List Char) (p : Position) :
    (Cursor.mk (gap ++ rest) p).next = (Cursor.mk rest (p.after gap)).next := by
  induction gap generalizing p with
  | nil => rfl
  | cons c gap ih =>
    obtain ⟨hc, hgap⟩ := List.forall_mem_cons.1 h
    rw [List.cons_append, next_of_isSpace hc, ih hgap]
    rfl

theorem next_of_space {s : Cursor} (h : ∀ c ∈ s.rest, isSpace c = true) :
    s.next =
      (.ok (.endOfText (s.position.after s.rest)), ⟨[], s.position.after s.rest⟩) := by
  have hnext := next_append_of_isSpace h [] s.position
  rw [List.append_nil] at hnext
  exact hnext

end Cursor

theorem kind_of_punctuation {c : Char} {kind : TokenKind} (h : punctuation? c = some kind) :
    kind ∈ [TokenKind.openParen, .closeParen, .slash] := by
  unfold punctuation? at h
  split at h
  · cases h
    decide
  · split at h
    · cases h
      decide
    · split at h
      · cases h
        decide
      · cases h

theorem tokenAt_of_isQuote {c : Char} (h : isQuote c = true) (s : Cursor) (rest : List Char) :
    s.tokenAt c rest = s.literal c rest := by
  have hc : punctuation? c = none ∧ isComparatorChar c = false := by
    simp only [isQuote, Bool.or_eq_true, beq_iff_eq] at h
    rcases h with rfl | rfl <;> decide
  simp only [Cursor.tokenAt, hc, h, Bool.false_eq_true, ↓reduceIte]

theorem isSpace_of_isQuote {c : Char} (h : isQuote c = true) : isSpace c = false := by
  simp only [isQuote, Bool.or_eq_true, beq_iff_eq] at h
  rcases h with rfl | rfl <;> decide

theorem isSpace_of_takes {taken rest : List Char} {k : Content} (h : Takes taken k rest) :
    ∃ c cs, taken = c :: cs ∧ isSpace c = false := by
  cases h with
  | @punctuation c kind _ mark =>
    refine ⟨c, [], rfl, ?_⟩
    unfold punctuation? at mark
    rw [Bool.eq_false_iff]
    intro hs
    simp only [isSpace, Bool.or_eq_true, beq_iff_eq] at hs
    rcases hs with ((rfl | rfl) | rfl) | rfl <;> simp at mark
  | @comparator c cs _ run _ =>
    refine ⟨c, cs, rfl, ?_⟩
    have hc := run c List.mem_cons_self
    simp only [isComparatorChar, Bool.or_eq_true, beq_iff_eq] at hc
    rcases hc with (rfl | rfl) | rfl <;> decide
  | @literal mark body _ quote _ =>
    exact ⟨mark, body ++ [mark], rfl, isSpace_of_isQuote quote⟩
  | @word c cs _ _ run _ =>
    have hc := run c List.mem_cons_self
    simp only [isDelimiter, Bool.or_eq_false_iff] at hc
    exact ⟨c, cs, rfl, hc.2⟩

theorem kind_of_takes {taken rest : List Char} {k : Content} (h : Takes taken k rest) :
    k.1 ≠ .endOfText := by
  cases h with
  | punctuation mark =>
    rintro rfl
    exact absurd (kind_of_punctuation mark) (by decide)
  | comparator | literal | word => simp

theorem tokenAt_of_takes {c : Char} {cs rest : List Char} {k : Content}
    (h : Takes (c :: cs) k rest) (p : Position) :
    (Cursor.mk (c :: (cs ++ rest)) p).tokenAt c (cs ++ rest) =
      (.ok (k.at p (c :: cs)), ⟨rest, p.after (c :: cs)⟩) := by
  cases h with
  | punctuation mark => simp only [Cursor.tokenAt, mark]; rfl
  | comparator run stop =>
    have hc := run c List.mem_cons_self
    have hp : punctuation? c = none := by
      simp only [isComparatorChar, Bool.or_eq_true, beq_iff_eq] at hc
      rcases hc with (rfl | rfl) | rfl <;> decide
    obtain ⟨htake, hdrop⟩ := span_append run stop
    rw [List.cons_append] at htake hdrop
    simp only [Cursor.tokenAt, hp, hc, ↓reduceIte, Cursor.run, Cursor.skipWhile, htake, hdrop]
    rfl
  | @literal _ body _ quote closed =>
    have hsplit : splitLiteral c false (body ++ [c] ++ rest) = some (body, rest) :=
      splitLiteral_append closed rest
    simp only [tokenAt_of_isQuote quote, Cursor.literal, hsplit]
    rfl
  | word bare run stop =>
    have hc := run c List.mem_cons_self
    simp only [isDelimiter, Bool.or_eq_false_iff, Option.isSome_eq_false_iff,
      Option.isNone_iff_eq_none] at hc
    have hrun : ∀ d ∈ c :: cs, (!isDelimiter d) = true := fun d hd => by rw [run d hd]; rfl
    have hspan := span_append hrun fun d hd => by rw [stop d hd]; rfl
    rw [List.cons_append] at hspan
    simp only [Cursor.tokenAt, hc, bare, Bool.false_eq_true, ↓reduceIte, Cursor.run,
      Cursor.skipWhile, hspan]
    rfl

/-- Where the characters of a token stand behind some space, it is the next token. -/
theorem next_of_takes {gap taken rest : List Char} {k : Content}
    (hgap : ∀ c ∈ gap, isSpace c = true) (h : Takes taken k rest) (p : Position) :
    (Cursor.mk (gap ++ (taken ++ rest)) p).next =
      (.ok (k.at (p.after gap) taken), ⟨rest, (p.after gap).after taken⟩) := by
  obtain ⟨c, cs, rfl, hc⟩ := isSpace_of_takes h
  rw [Cursor.next_append_of_isSpace hgap, List.cons_append, Cursor.next_of_not_isSpace hc]
  exact tokenAt_of_takes h _

/-- Where nothing is in front of the characters of a token. -/
theorem next_of_takes_nil {taken rest : List Char} {k : Content} (h : Takes taken k rest)
    (p : Position) : (Cursor.mk (taken ++ rest) p).next =
      (.ok (k.at p taken), ⟨rest, p.after taken⟩) :=
  next_of_takes (List.forall_mem_nil (isSpace · = true)) h p

/-- The token `t` is read from the cursor `s` and leaves the cursor `u`: some space is passed over,
the characters of the token are taken, and what is left stays. -/
structure Cuts (s : Cursor) (t : Token) (u : Cursor) (gap taken : List Char) : Prop where
  rest : s.rest = gap ++ (taken ++ u.rest)
  space : ∀ c ∈ gap, isSpace c = true
  takes : Takes taken t.content u.rest
  token : t = t.content.at (s.position.after gap) taken
  position : u.position = (s.position.after gap).after taken

theorem exists_takes_of_tokenAt {s u : Cursor} {c : Char} {rest : List Char} {t : Token}
    (hs : s.rest = c :: rest) (hc : isSpace c = false) (h : s.tokenAt c rest = (.ok t, u)) :
    ∃ taken, s.rest = taken ++ u.rest ∧ Takes taken t.content u.rest ∧
      t = t.content.at s.position taken ∧ u.position = s.position.after taken := by
  unfold Cursor.tokenAt at h
  split at h
  · next kind hp =>
    cases h
    exact ⟨[c], hs, .punctuation hp, rfl, rfl⟩
  · next hp =>
    have hrun (p : Char → Bool) (hpc : p c = true) : ∃ cs, s.rest.takeWhile p = c :: cs ∧
        (∀ d ∈ c :: cs, p d = true) ∧ s.rest = c :: cs ++ s.rest.dropWhile p := by
      have htake : s.rest.takeWhile p = c :: rest.takeWhile p := by
        rw [hs, List.takeWhile_cons, hpc]
        rfl
      refine ⟨_, htake, ?_, ?_⟩
      · rw [← htake]
        exact List.all_eq_true.1 List.all_takeWhile
      · rw [← htake, List.takeWhile_append_dropWhile]
    split at h
    · next hk =>
      cases h
      obtain ⟨cs, htake, hall, hsplit⟩ := hrun isComparatorChar hk
      refine ⟨c :: cs, hsplit, ?_, ?_, ?_⟩
      · simp only [Token.content, htake]
        exact .comparator hall (head?_dropWhile s.rest)
      · simp only [Cursor.skipWhile, Token.content, htake]
        rfl
      · simp only [Cursor.skipWhile, htake]
    · next hk =>
      split at h
      · next hq =>
        unfold Cursor.literal at h
        split at h
        · next body left hl =>
          cases h
          obtain ⟨hrest, hclosed⟩ := splitLiteral_eq_some hl
          refine ⟨c :: (body ++ [c]), ?_, .literal hq hclosed, rfl, rfl⟩
          rw [hs, hrest]
          simp
        · cases h
      · next hq =>
        cases h
        have hd : isDelimiter c = false := by simp [isDelimiter, hp, hk, hc]
        obtain ⟨cs, htake, hall, hsplit⟩ := hrun (fun d => !isDelimiter d) (by rw [hd]; rfl)
        refine ⟨c :: cs, hsplit, ?_, ?_, ?_⟩
        · simp only [Token.content, htake]
          refine .word (Bool.eq_false_iff.2 hq) (fun d hd => by simpa using hall d hd) ?_
          intro d hd
          simpa using head?_dropWhile (p := fun d => !isDelimiter d) s.rest d hd
        · simp only [Cursor.skipWhile, Token.content, htake]
          rfl
        · simp only [Cursor.skipWhile, htake]

/-- What the next token takes. Behind the last one there is nothing but space. -/
theorem cuts_of_next {s u : Cursor} {t : Token} (h : s.next = (.ok t, u)) :
    (∃ gap taken, Cuts s t u gap taken) ∨
      t.kind = .endOfText ∧ ∀ c ∈ s.rest, isSpace c = true := by
  unfold Cursor.next at h
  have hsplit : s.rest.takeWhile isSpace ++ s.rest.dropWhile isSpace = s.rest :=
    List.takeWhile_append_dropWhile
  have hspace : ∀ c ∈ s.rest.takeWhile isSpace, isSpace c = true :=
    List.all_eq_true.1 List.all_takeWhile
  dsimp only at h
  split at h
  · next hnil =>
    cases h
    refine .inr ⟨rfl, ?_⟩
    rw [show s.rest.dropWhile isSpace = [] from hnil, List.append_nil] at hsplit
    rwa [hsplit] at hspace
  · next c rest hcons =>
    have hc := Cursor.not_of_skipWhile hcons
    obtain ⟨taken, hrest, htakes, ht, hu⟩ := exists_takes_of_tokenAt hcons hc h
    refine .inl ⟨s.rest.takeWhile isSpace, taken, ?_, hspace, htakes, ht, hu⟩
    rw [← hrest]
    exact hsplit.symm

inductive Reads : Cursor → List Token → Cursor → Prop
  | nil (s : Cursor) : Reads s [] s
  | cons {s u v : Cursor} {t : Token} {ts : List Token} (next : s.next = (.ok t, u))
    (inner : t.kind ≠ .endOfText) (more : Reads u ts v) : Reads s (t :: ts) v

theorem Reads.append {s u v : Cursor} {ts us : List Token} (h : Reads s ts u)
    (h' : Reads u us v) : Reads s (ts ++ us) v := by
  induction h with
  | nil => exact h'
  | cons hn hk _ ih => exact .cons hn hk (ih h')

/-- The first token alone sees where reading starts. -/
theorem Reads.of_next_eq {s s' v : Cursor} {t : Token} {ts : List Token} (hs : s.next = s'.next)
    (h : Reads s' (t :: ts) v) : Reads s (t :: ts) v := by
  cases h with
  | cons hn hk hr => exact .cons (hs.trans hn) hk hr

theorem Reads.scan_after {s u : Cursor} {ts : List Token} (h : Reads s ts u) (done : List Token) :
    Scan.after done s = Scan.after (ts.reverse ++ done) u := by
  induction h generalizing done with
  | nil => rfl
  | cons hn hk _ ih =>
    rw [Scan.after]
    split
    · next t _ hn' =>
      obtain ⟨ht, rfl⟩ := Prod.mk.inj (hn.symm.trans hn')
      cases ht
      rw [dif_neg hk, ih, List.reverse_cons, List.append_assoc, List.singleton_append]
    · next hn' => rw [hn] at hn'; cases hn'

/-- Tokens are read in the order of their places. -/
theorem Reads.sorted {s u : Cursor} {ts : List Token} (h : Reads s ts u) :
    (∀ t ∈ ts, s.position.offset ≤ t.start.offset) ∧
      ts.Pairwise fun t t' => t.start.offset < t'.start.offset := by
  induction h with
  | nil => exact ⟨nofun, .nil⟩
  | @cons s u v t ts hnext inner _ ih =>
    obtain ⟨hbehind, hsorted⟩ := ih
    obtain ⟨gap, taken, hcuts⟩ := (cuts_of_next hnext).resolve_right fun h => inner h.1
    obtain ⟨c, cs, rfl, -⟩ := isSpace_of_takes hcuts.takes
    have hsize := c.utf8Size_pos
    have hstart : t.start.offset = s.position.offset + byteLength gap := by
      rw [hcuts.token]
      exact offset_after _ _
    have hstop : t.start.offset < u.position.offset := by
      rw [hcuts.position, offset_after, offset_after, hstart, byteLength]
      omega
    refine ⟨List.forall_mem_cons.2 ⟨by omega, fun t' ht' => ?_⟩, .cons (fun t' ht' => ?_) hsorted⟩
    · exact Nat.le_trans (by omega) (hbehind t' ht')
    · exact Nat.lt_of_lt_of_le hstop (hbehind t' ht')

/-- What has been read lies in front of the cursor. -/
theorem Reads.stop_le {s u : Cursor} {ts : List Token} (h : Reads s ts u) :
    s.position.offset ≤ u.position.offset ∧ ∀ t ∈ ts, t.stop ≤ u.position.offset := by
  induction h with
  | nil => exact ⟨Nat.le_refl _, nofun⟩
  | @cons s u v t ts hnext inner _ ih =>
    obtain ⟨hle, hstops⟩ := ih
    obtain ⟨gap, taken, hcuts⟩ := (cuts_of_next hnext).resolve_right fun h => inner h.1
    have hstop : t.stop = u.position.offset := by
      rw [hcuts.token, hcuts.position]
      rfl
    have hstart : s.position.offset ≤ u.position.offset := by
      rw [hcuts.position, offset_after, offset_after]
      omega
    exact ⟨Nat.le_trans hstart hle, List.forall_mem_cons.2 ⟨by omega, hstops⟩⟩

/-- A scan looks at its cursor through the next token alone. -/
theorem scan_after_of_next_eq {s s' : Cursor} (h : s.next = s'.next) (done : List Token) :
    Scan.after done s = Scan.after done s' := by
  have hstep (s : Cursor) : Scan.after done s = match s.next with
      | (.ok t, rest) => if t.kind = .endOfText then ⟨done.reverse, .complete t.start⟩
        else Scan.after (t :: done) rest
      | (.error fault, _) => ⟨done.reverse, .broken fault⟩ := by
    rw [Scan.after]
    split
    · next hn => simp only [hn, dite_eq_ite]
    · next hn => rw [hn]
  rw [hstep, hstep, h]

/-- Reading stops at the cursor `u` in this way: nothing but space is left, or a literal that is
never closed comes next. -/
inductive Ends (u : Cursor) : Ending → Prop
  | complete (space : ∀ c ∈ u.rest, isSpace c = true) :
    Ends u (.complete (u.position.after u.rest))
  | broken {fault : Fault} {v : Cursor} (next : u.next = (.error fault, v)) :
    Ends u (.broken fault)

theorem Ends.scan_after {u : Cursor} {e : Ending} (h : Ends u e) (done : List Token) :
    Scan.after done u = ⟨done.reverse, e⟩ := by
  cases h with
  | complete space =>
    have hnext := Cursor.next_of_space space
    rw [Scan.after]
    split
    · next hn =>
      cases hnext.symm.trans hn
      rfl
    · next hn => cases hnext.symm.trans hn
  | broken hnext =>
    rw [Scan.after]
    split
    · next hn => cases hnext.symm.trans hn
    · next hn =>
      cases hnext.symm.trans hn
      rfl

/-- A scan reads its tokens one behind the other and stops. -/
theorem exists_reads_scan_after (done : List Token) (s : Cursor) :
    ∃ ts u, Reads s ts u ∧ (Scan.after done s).tokens = done.reverse ++ ts ∧
      Ends u (Scan.after done s).ending := by
  fun_induction Scan.after done s with
  | case1 done s t rest hn hk =>
    refine ⟨[], s, .nil s, (List.append_nil _).symm, ?_⟩
    rcases cuts_of_next hn with ⟨gap, taken, hcuts⟩ | ⟨-, hspace⟩
    · exact absurd hk (kind_of_takes hcuts.takes)
    · obtain ⟨ht, -⟩ := Prod.mk.inj (hn.symm.trans (Cursor.next_of_space hspace))
      cases ht
      exact .complete hspace
  | case2 done s t rest hn hk _ ih =>
    obtain ⟨ts, u, hreads, hts, hend⟩ := ih
    refine ⟨t :: ts, u, .cons hn hk hreads, ?_, hend⟩
    rw [hts, List.reverse_cons, List.append_assoc]
    rfl
  | case3 done s fault v hn => exact ⟨[], s, .nil s, (List.append_nil _).symm, .broken hn⟩

section Text
variable {text : String} {ts : List Token} {p : Position}

theorem scan_ofText_eq_iff {e : Ending} :
    Scan.ofText text = ⟨ts, e⟩ ↔ ∃ u, Reads (.ofText text) ts u ∧ Ends u e := by
  constructor
  · intro h
    obtain ⟨us, u, hreads, hus, hend⟩ := exists_reads_scan_after [] (.ofText text)
    rw [show Scan.after [] (.ofText text) = ⟨ts, e⟩ from h] at hus hend
    obtain rfl : ts = us := hus
    exact ⟨u, hreads, hend⟩
  · rintro ⟨u, hreads, hend⟩
    rw [Scan.ofText, hreads.scan_after, hend.scan_after, List.append_nil, List.reverse_reverse]

theorem Reads.scan_ofText (h : Reads (.ofText text) ts ⟨[], p⟩) :
    Scan.ofText text = ⟨ts, .complete p⟩ :=
  scan_ofText_eq_iff.2 ⟨_, h, .complete nofun⟩

theorem tokenize_eq_ok (h : (Scan.ofText text).ending = .complete p)
    (hts : (Scan.ofText text).tokens = ts) : tokenize text = .ok (ts ++ [.endOfText p]) := by
  rw [tokenize, Scan.toList, h, hts]

theorem tokenize_eq_ok_iff : tokenize text = .ok ts ↔
    ∃ inner p, Scan.ofText text = ⟨inner, .complete p⟩ ∧ ts = inner ++ [.endOfText p] := by
  rw [tokenize, Scan.toList]
  obtain ⟨tokens, ending⟩ := Scan.ofText text
  cases ending with
  | complete p => simp [and_assoc, eq_comm]
  | broken fault => simp

theorem tokenize_eq_error_iff {fault : Fault} : tokenize text = .error fault ↔
    ∃ inner, Scan.ofText text = ⟨inner, .broken fault⟩ := by
  rw [tokenize, Scan.toList]
  obtain ⟨tokens, ending⟩ := Scan.ofText text
  cases ending with
  | complete p => simp
  | broken fault => simp

theorem tokenize_inv (h : tokenize text = .ok (ts ++ [.endOfText p])) :
    Scan.ofText text = ⟨ts, .complete p⟩ := by
  obtain ⟨inner, q, hs, hts⟩ := tokenize_eq_ok_iff.1 h
  obtain ⟨rfl, hlast⟩ := List.append_inj' hts rfl
  obtain rfl : p = q := (Token.mk.inj (List.singleton_inj.1 hlast)).2.2.1
  exact hs

/-- The tokens of a text are read one behind the other, and space is left. -/
theorem reads_of_tokenize (h : tokenize text = .ok (ts ++ [.endOfText p])) :
    ∃ u, Reads (.ofText text) ts u ∧ ∀ c ∈ u.rest, isSpace c = true := by
  obtain ⟨u, hreads, hend⟩ := scan_ofText_eq_iff.1 (tokenize_inv h)
  cases hend with
  | complete space => exact ⟨u, hreads, space⟩

end Text

end ContextQuery.Cql
