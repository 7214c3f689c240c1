import ContextQuery.Proofs.Cql.Spelling

namespace ContextQuery.Cql

def wordToken (s : String) (p : Position) : Token := (wordContent s).at p (writeWord s).toList

/-- The characters are space, or one of the tokens that a word does not run on from. -/
inductive Fronts : List Char → List Content → Prop
  | space {gap : List Char} (space : ∀ c ∈ gap, isSpace c = true) : Fronts gap []
  | punctuation {c : Char} {kind : TokenKind} (mark : punctuation? c = some kind) :
    Fronts [c] [(kind, String.singleton c)]
  | comparator {s : String} (run : isComparatorRun s = true) :
    Fronts s.toList [(.comparator, s)]

/-- Is the text read as the value of a literal between double quotes, somewhere in some text? -/
def IsDoubleQuoted (v : String) : Prop :=
  ∃ gap rest p t u, (∀ c ∈ gap, isSpace c = true) ∧
    (Cursor.mk (gap ++ '"' :: rest) p).next = (.ok t, u) ∧ t.value = v

section Token
variable {s : String}

theorem length_le_escapeFrom (escaped : Bool) (cs : List Char) :
    cs.length ≤ (escapeFrom escaped cs).length := by
  induction cs generalizing escaped with
  | nil => exact Nat.zero_le _
  | cons c cs ih =>
    have hrest := ih (c == '\\' && !escaped)
    rw [escapeFrom, List.length_append, List.length_cons]
    split <;> simp only [List.length_cons, List.length_nil] <;> omega

theorem quote_ne (s : String) : quote s ≠ s := by
  intro h
  have hlength := congrArg (List.length ∘ String.toList) h
  have hle := length_le_escapeFrom false s.toList
  simp only [Function.comp_apply, quote, String.toList_append, toList_escape, List.length_append]
    at hlength
  simp at hlength
  omega

/-- A word without quotes around it is a bareword of that value; else the value is what stands
between the quotes. -/
theorem content_wordToken (s : String) (p : Position) : (wordToken s p).content =
    if writeWord s = s then (.bareword, s) else (.quoted, escape s) := by
  change wordContent s = _
  unfold wordContent writeWord
  by_cases h : isBare s = true
  · rw [if_pos h, if_pos h, if_pos rfl]
  · rw [if_neg h, if_neg h, if_neg (quote_ne s)]

theorem isKeyword_wordToken (s : String) (p : Position) : (wordToken s p).isKeyword = false := by
  change (Token.operator? _).isSome = false
  unfold Token.operator? wordToken Content.at wordContent
  by_cases h : isBare s = true
  · rw [if_pos h]
    simp only [↓reduceIte, (isBare_iff.1 h).2.1, Option.isSome_none]
  · rw [if_neg h]
    rfl

/-- A token that is all of a text is read of it alone. -/
theorem tokenize_of_takes {k : Content} (h : Takes s.toList k []) : tokenize s =
    .ok [k.at .start s.toList, .endOfText (Position.start.after s.toList)] := by
  have hnext := next_of_takes_nil h .start
  rw [List.append_nil] at hnext
  have hreads : Reads (.ofText s) [k.at .start s.toList] ⟨[], Position.start.after s.toList⟩ :=
    .cons hnext (kind_of_takes h) (.nil _)
  have hscan := hreads.scan_ofText
  exact tokenize_eq_ok (congrArg Scan.ending hscan) (congrArg Scan.tokens hscan)

/-- What stands in front of a word is read apart from it. -/
theorem Fronts.reads {front : List Char} {ks : List Content} (h : Fronts front ks)
    {behind : List Char} (stop : EndsWord behind) (p : Position) : ∃ ts, ts.map Token.content = ks ∧
      Reads ⟨front ++ ((writeWord s).toList ++ behind), p⟩ (ts ++ [wordToken s (p.after front)])
        ⟨behind, (p.after front).after (writeWord s).toList⟩ := by
  have hword := takes_writeWord s stop
  have hkind : (wordToken s (p.after front)).kind ≠ .endOfText := kind_of_takes hword
  have hlast (q : Position) : Reads ⟨(writeWord s).toList ++ behind, q⟩ [wordToken s q]
      ⟨behind, q.after (writeWord s).toList⟩ :=
    .cons (next_of_takes_nil hword q) (kind_of_takes hword) (.nil _)
  -- A mark of one token, which ends in front of the word.
  have hmark {k : Content} (hk : Takes front k ((writeWord s).toList ++ behind)) :
      Reads ⟨front ++ ((writeWord s).toList ++ behind), p⟩
        ([k.at p front] ++ [wordToken s (p.after front)])
        ⟨behind, (p.after front).after (writeWord s).toList⟩ :=
    .cons (next_of_takes_nil hk p) (kind_of_takes hk) (hlast _)
  cases h with
  | space hspace =>
    exact ⟨[], rfl, .cons (next_of_takes hspace hword p) hkind (.nil _)⟩
  | punctuation mark => exact ⟨_, rfl, hmark (.punctuation mark)⟩
  | @comparator run hrun =>
    obtain ⟨hne, hall⟩ := isComparatorRun_iff.1 hrun
    obtain ⟨c, cs, hcs⟩ := List.exists_cons_of_ne_nil (mt String.toList_eq_nil_iff.1 hne)
    have htakes : Takes run.toList (.comparator, String.ofList run.toList)
        ((writeWord s).toList ++ behind) := by
      rw [hcs] at hall ⊢
      exact .comparator hall (endsRun_writeWord s behind)
    rw [String.ofList_toList] at htakes
    exact ⟨_, rfl, hmark htakes⟩

end Token

section Literal

/-- What has been read between double quotes needs no more escaping. -/
theorem escapeFrom_of_splitLiteral {escaped : Bool} {cs body rest : List Char}
    (h : splitLiteral '"' escaped cs = some (body, rest)) : escapeFrom escaped body = body := by
  induction cs generalizing escaped body with
  | nil => cases h
  | cons c cs ih =>
    rw [splitLiteral] at h
    split at h
    · next hc =>
      cases h
      rw [hc.2]
      rfl
    · next hc =>
      obtain ⟨⟨more, after⟩, hmore, he⟩ := Option.map_eq_some_iff.1 h
      cases he
      rw [escapeFrom, if_neg hc, ih hmore]
      rfl

theorem isDoubleQuoted_iff {v : String} : IsDoubleQuoted v ↔ escape v = v := by
  constructor
  · rintro ⟨gap, rest, p, t, u, hgap, hnext, rfl⟩
    rw [Cursor.next_append_of_isSpace hgap, Cursor.next_of_not_isSpace (by decide),
      tokenAt_of_isQuote (by decide), Cursor.literal] at hnext
    split at hnext
    · next body left hsplit =>
      cases hnext
      rw [escape, String.toList_ofList, escapeFrom_of_splitLiteral hsplit]
    · cases hnext
  · intro h
    have hnext := next_of_takes_nil (takes_quote v []) .start
    rw [List.append_nil] at hnext
    have hquote : (quote v).toList = '"' :: (escape v ++ "\"").toList := by
      simp [quote]
    rw [hquote] at hnext
    exact ⟨[], _, _, _, _, List.forall_mem_nil _, hnext, h⟩

end Literal

/-- A word as it is written is one token, alone and between anything that belongs to no word, and
never an operator; a text between quotes is one literal; and escaping again changes nothing, as it
changes nothing in what can be read between double quotes. -/
theorem word_read_as_written (s : String) :
    tokenize (writeWord s) =
      .ok [wordToken s .start, .endOfText (Position.start.after (writeWord s).toList)] ∧
    (∀ p, (wordToken s p).content =
      if writeWord s = s then (.bareword, s) else (.quoted, escape s)) ∧
    (∀ p, (wordToken s p).isKeyword = false) ∧
    (∀ front ks behind p, Fronts front ks → EndsWord behind → ∃ ts, ts.map Token.content = ks ∧
      Reads ⟨front ++ ((writeWord s).toList ++ behind), p⟩ (ts ++ [wordToken s (p.after front)])
        ⟨behind, (p.after front).after (writeWord s).toList⟩) ∧
    tokenize (quote s) = .ok [⟨.quoted, escape s, .start, byteLength (quote s).toList⟩,
      .endOfText (Position.start.after (quote s).toList)] ∧
    escape (escape s) = escape s ∧ (IsDoubleQuoted s ↔ escape s = s) := by
  refine ⟨tokenize_of_takes (takes_writeWord s nofun), content_wordToken s, isKeyword_wordToken s,
    fun front ks behind p hfront stop => hfront.reads stop p, ?_, escape_escape s,
    isDoubleQuoted_iff⟩
  rw [tokenize_of_takes (takes_quote s [])]
  simp only [Content.at, offset_after]
  rw [show Position.start.offset = 0 from rfl, Nat.zero_add]

def hostileWord : String := "a\"\\"

theorem word_read_as_written_hostileWord :
    Fronts ['/'] [(.slash, "/")] ∧ EndsWord ['=', '1'] ∧
    writeWord hostileWord = "\"a\\\"\\\\\"" ∧ ∃ ts, ts.map Token.content = [(.slash, "/")] ∧
      Reads ⟨'/' :: ((writeWord hostileWord).toList ++ ['=', '1']), .start⟩
        (ts ++ [⟨.quoted, "a\\\"\\\\", ⟨1, 2, 1⟩, 8⟩]) ⟨['=', '1'], ⟨1, 9, 8⟩⟩ := by
  have hslash : Fronts ['/'] [(.slash, "/")] := .punctuation rfl
  have hsign : EndsWord ['=', '1'] := endsWord_cons rfl _
  obtain ⟨-, -, -, hbetween, -⟩ := word_read_as_written hostileWord
  have hreads := hbetween ['/'] _ ['=', '1'] .start hslash hsign
  have htoken : wordToken hostileWord (Position.start.after ['/']) =
      ⟨.quoted, "a\\\"\\\\", ⟨1, 2, 1⟩, 8⟩ := by decide
  have hplace : (Position.start.after ['/']).after (writeWord hostileWord).toList = ⟨1, 9, 8⟩ := by
    decide
  rw [htoken, hplace] at hreads
  exact ⟨hslash, hsign, by decide, hreads⟩

end ContextQuery.Cql
