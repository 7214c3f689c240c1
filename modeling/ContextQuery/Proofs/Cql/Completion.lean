import ContextQuery.Proofs.Cql.Echo
import ContextQuery.Proofs.Cql.Follow
import ContextQuery.Proofs.Cql.Spelling

namespace ContextQuery.Cql

section Completes
variable {ts place : List Token} {cause : Cause}

def wordFiller : Content := (.quoted, "a")

def closingFiller : Content := (.closeParen, ")")

def IsFiller (k : Content) : Prop := k = wordFiller ∨ k = closingFiller

theorem Token.kind_of_content {t : Token} {k : Content} (h : t.content = k) : t.kind = k.1 :=
  congrArg Prod.fst h

/-- A completion goes on with a word or a parenthesis. -/
theorem follows_of_fillers {us rest : List Token} (hus : ∀ u ∈ us, IsFiller u.content)
    (hrest : Closing rest) (rest' : List Token) :
    Follows [.quoted, .closeParen] rest' (us ++ rest) := by
  refine .inr fun t ht => ?_
  cases us with
  | nil => simp [hrest t ht]
  | cons u us =>
    obtain rfl : u = t := Option.some.inj ht
    rcases hus u List.mem_cons_self with h | h <;> rw [Token.kind_of_content h] <;> decide

theorem RefusesModifiers.completes (h : RefusesModifiers ts cause place) :
    ∃ front, ts = front ++ place ∧ ∀ word rest, word.content = wordFiller →
      (∀ t ∈ rest.head?, t.kind = .quoted) →
        ∃ ms, IsModifiers (front ++ word :: rest) ms rest := by
  have hquoted {rest : List Token} (hrest : ∀ t ∈ rest.head?, t.kind = .quoted)
      {kind : TokenKind} (hkind : kind ≠ .quoted) : ∀ t ∈ rest.head?, t.kind ≠ kind :=
    fun t ht hk => hkind (hk.symm.trans (hrest t ht))
  have hword {word : Token} (hw : word.content = wordFiller) :
      word.isWord = true ∧ word.value ≠ "" := by
    have hvalue : word.value = "a" := congrArg Prod.snd hw
    exact ⟨Token.isWord_iff.2 (.inr (Token.kind_of_content hw)), by simp [hvalue]⟩
  induction h with
  | @name slash ts mark nameless =>
    refine ⟨[slash], rfl, fun word rest hw hrest => ⟨_, .flag mark (hword hw).1 (hword hw).2
      (hquoted hrest (by decide)) (.none (hquoted hrest (by decide)))⟩⟩
  | @value slash name comparator ts mark word named relation missing =>
    exact ⟨[slash, name, comparator], rfl, fun operand rest hw hrest =>
      ⟨_, .comparison mark word named relation (hword hw).1 (.none (hquoted hrest (by decide)))⟩⟩
  | @flag slash name ts place cause mark word named stop _ ih =>
    obtain ⟨front, rfl, hfront⟩ := ih
    refine ⟨slash :: name :: front, rfl, fun filler rest hw hrest => ?_⟩
    obtain ⟨ms, hms⟩ := hfront filler rest hw hrest
    have hfollows : Follows [.quoted] (front ++ place) (front ++ filler :: rest) :=
      Follows.append (.inr fun t ht => by
        rw [← Option.some.inj ht, Token.kind_of_content hw]
        decide) front
    refine ⟨_, .flag mark word named (hfollows.forall_head? (fun t ht => ?_) stop) hms⟩
    rw [List.mem_singleton.1 ht]
    decide
  | @comparison slash name comparator value ts place cause mark word named relation operand _ ih =>
    obtain ⟨front, rfl, hfront⟩ := ih
    refine ⟨slash :: name :: comparator :: value :: front, rfl, fun filler rest hw hrest => ?_⟩
    obtain ⟨ms, hms⟩ := hfront filler rest hw hrest
    exact ⟨_, .comparison mark word named relation operand hms⟩

theorem RefusesDeclaration.completes (h : RefusesDeclaration ts place) :
    ∃ front, ts = front ++ place ∧ ∀ word rest, word.content = wordFiller →
      (∀ t ∈ rest.head?, t.kind = .quoted) →
        ∃ d, IsDeclaration (front ++ word :: rest) d rest := by
  cases h with
  | first missing =>
    refine ⟨[], rfl, fun word rest hw hrest => ⟨_, .unnamed (fun t ht => ?_)
      (.quoted (Token.kind_of_content hw))⟩⟩
    simp [Token.isComparator, hrest t ht]
  | @identifier key sign ts word equals missing =>
    exact ⟨[key, sign], rfl, fun filler rest hw hrest =>
      ⟨_, .named word equals (.quoted (Token.kind_of_content hw))⟩⟩

section Fill
variable {scope : Scope} {r : Registry} {rest : List Token}

theorem derives_stop (hrest : Closing rest) (left : Meaning) :
    Derives (.chain left) scope r rest left rest :=
  .stop fun t ht => by simp [Token.operator?, hrest t ht]

theorem derives_filler {word : Token} (hw : word.content = wordFiller) (hrest : Closing rest) :
    ∃ m, Derives .clause scope r (word :: rest) m rest :=
  ⟨_, .term (Token.isWord_iff.2 (.inr (Token.kind_of_content hw))) fun t ht => by
    simp [Token.isRelation, Token.isWord, hrest t ht]⟩

theorem derives_one_filler {us : List Token} (hus : us.map Token.content = [wordFiller])
    (hrest : Closing rest) : ∃ m, Derives .clause scope r (us ++ rest) m rest := by
  obtain ⟨word, more, rfl, hword, hnil⟩ := List.map_eq_cons_iff.1 hus
  obtain rfl := List.map_eq_nil_iff.1 hnil
  exact derives_filler hword hrest

/-- Of two words the first is the one that is missing in front of a clause, which is the second. -/
theorem derives_two_fillers {us : List Token}
    (hus : us.map Token.content = [wordFiller, wordFiller]) (hrest : Closing rest) :
    ∃ word behind, us ++ rest = word :: behind ∧
      word.content = wordFiller ∧ (∀ t ∈ behind.head?, t.kind = .quoted) ∧
      ∀ scope r, ∃ m, Derives .clause scope r behind m rest := by
  obtain ⟨word, more, rfl, hword, hmore⟩ := List.map_eq_cons_iff.1 hus
  obtain ⟨operand, more, rfl, hoperand, hnil⟩ := List.map_eq_cons_iff.1 hmore
  obtain rfl := List.map_eq_nil_iff.1 hnil
  refine ⟨word, operand :: rest, rfl, hword, fun t ht => ?_, fun _ _ =>
    derives_filler hoperand hrest⟩
  rw [← Option.some.inj ht]
  exact Token.kind_of_content hoperand

/-- A parenthesis closes in front of whatever comes behind a phrase. -/
theorem exists_closing_filler {us : List Token} (hus : us.map Token.content = [closingFiller]) :
    ∃ closing, us = [closing] ∧ closing.kind = .closeParen := by
  obtain ⟨closing, more, rfl, hclosing, hnil⟩ := List.map_eq_cons_iff.1 hus
  obtain rfl := List.map_eq_nil_iff.1 hnil
  exact ⟨closing, rfl, Token.kind_of_content hclosing⟩

theorem isFiller_words : ∀ k ∈ [wordFiller, wordFiller], IsFiller k := by simp [IsFiller]

end Fill

/-- A chain is refused behind the operator with which it begins, unless it is for depth. -/
theorem Refuses.exists_cons_of_chain {n : Nat} {left : Meaning} {scope : Scope} {r : Registry}
    (h : Refuses n (.chain left) scope r ts cause place) (hdeep : cause ≠ .nestedTooDeeply) :
    ∃ t ts', ts = t :: ts' ∧ place <:+ ts' := by
  cases h with
  | operator _ modifiers => exact ⟨_, _, rfl, modifiers.suffix⟩
  | operand _ modifiers operand => exact ⟨_, _, rfl, operand.suffix.trans modifiers.suffix⟩
  | height => exact absurd rfl hdeep
  | chain _ modifiers operand _ chain =>
    exact ⟨_, _, rfl, (chain.suffix.trans operand.suffix).trans modifiers.suffix⟩

/-- Then what is in front of the refusal is not empty, and any other rest begins like it. -/
theorem Refuses.head?_of_chain {n : Nat} {left : Meaning} {scope : Scope} {r : Registry}
    {front : List Token} (h : Refuses n (.chain left) scope r (front ++ place) cause place)
    (hdeep : cause ≠ .nestedTooDeeply) (rest : List Token) :
    (front ++ rest).head? = (front ++ place).head? := by
  cases front with
  | cons t front => rfl
  | nil =>
    obtain ⟨t, ts', hts, hsuffix⟩ := h.exists_cons_of_chain hdeep
    have hlength := hsuffix.length_le
    rw [show place = t :: ts' from hts, List.length_cons] at hlength
    exact absurd hlength (Nat.not_succ_le_self _)

/-- What is in front of a refusal is completed to the phrase by words and parentheses. -/
theorem Refuses.completes {n : Nat} {phrase : Phrase} {scope : Scope} {r : Registry}
    (h : Refuses n phrase scope r ts cause place) (hdeep : cause ≠ .nestedTooDeeply) :
    ∃ front ks, ts = front ++ place ∧ (∀ k ∈ ks, IsFiller k) ∧
      ∀ us rest, us.map Token.content = ks → Closing rest →
        ∃ m, Derives phrase scope r (front ++ (us ++ rest)) m rest := by
  have hfollows {us rest : List Token} {ks : List Content} (hks : ∀ k ∈ ks, IsFiller k)
      (hus : us.map Token.content = ks) (hrest : Closing rest) (rest' : List Token) :
      Follows [.quoted, .closeParen] rest' (us ++ rest) :=
    follows_of_fillers (List.forall_mem_map.1 (hus ▸ hks)) hrest rest'
  induction h with
  | first _ ih =>
    obtain ⟨front, ks, rfl, hks, hclause⟩ := ih hdeep
    refine ⟨front, ks, rfl, hks, fun us rest hus hrest => ?_⟩
    obtain ⟨m, hm⟩ := hclause us rest hus hrest
    exact ⟨m, .query hm (derives_stop hrest m)⟩
  | further clause fits chain ih =>
    obtain ⟨front, rfl, hclause⟩ := clause.follow
    obtain ⟨behind, ks, rfl, hks, hchain⟩ := ih hdeep
    refine ⟨front ++ behind, ks, (List.append_assoc ..).symm, hks, fun us rest hus hrest => ?_⟩
    obtain ⟨m, hm⟩ := hchain us rest hus hrest
    rw [List.append_assoc]
    exact ⟨m, .query (hclause _ (.inl (chain.head?_of_chain hdeep _))) hm⟩
  | @operator _ _ _ t _ _ _ _ _ keyword modifiers =>
    obtain ⟨front, rfl, hmodifiers⟩ := modifiers.completes
    refine ⟨t :: front, _, rfl, isFiller_words, fun us rest hus hrest => ?_⟩
    obtain ⟨word, behind, hbehind, hw, hquoted, hoperand⟩ := derives_two_fillers hus hrest
    obtain ⟨ms, hms⟩ := hmodifiers word behind hw hquoted
    obtain ⟨m, hm⟩ := hoperand _ _
    rw [hbehind]
    exact ⟨_, .operator keyword hms hm (derives_stop hrest _)⟩
  | @operand _ _ _ t _ _ _ _ _ _ _ keyword modifiers _ ih =>
    obtain ⟨marks, rfl, hmodifiers⟩ := modifiers.follow
    obtain ⟨front, ks, rfl, hks, hoperand⟩ := ih hdeep
    refine ⟨t :: (marks ++ front), ks, by simp, hks, fun us rest hus hrest => ?_⟩
    obtain ⟨m, hm⟩ := hoperand us rest hus hrest
    rw [List.cons_append, List.append_assoc]
    exact ⟨_, .operator keyword (hmodifiers _ ((hfollows hks hus hrest _).append front)) hm
      (derives_stop hrest _)⟩
  | height => exact absurd rfl hdeep
  | @chain _ _ _ t _ _ _ _ _ _ _ _ _ keyword modifiers operand fits chain ih =>
    obtain ⟨marks, rfl, hmodifiers⟩ := modifiers.follow
    obtain ⟨front, rfl, hoperand⟩ := operand.follow
    obtain ⟨behind, ks, rfl, hks, hchain⟩ := ih hdeep
    refine ⟨t :: (marks ++ (front ++ behind)), ks, by simp, hks, fun us rest hus hrest => ?_⟩
    obtain ⟨m, hm⟩ := hchain us rest hus hrest
    have hbehind := chain.head?_of_chain hdeep (us ++ rest)
    rw [List.cons_append, List.append_assoc, List.append_assoc]
    exact ⟨m, .operator keyword (hmodifiers _ (.inl (head?_append_eq hbehind front)))
      (hoperand _ (.inl hbehind)) hm⟩
  | nesting => exact absurd rfl hdeep
  | endOfText => exact ⟨[], [wordFiller], rfl, by simp [IsFiller], fun _ _ => derives_one_filler⟩
  | start => exact ⟨[], [wordFiller], rfl, by simp [IsFiller], fun _ _ => derives_one_filler⟩
  | @group _ _ _ opening _ _ _ opens _ ih =>
    obtain ⟨front, ks, rfl, hks, hquery⟩ := ih hdeep
    refine ⟨opening :: front, ks ++ [closingFiller], rfl,
      List.forall_mem_append.2 ⟨hks, by simp [IsFiller]⟩, fun us rest hus hrest => ?_⟩
    obtain ⟨inner, last, rfl, hinner, hlast⟩ := List.map_eq_append_iff.1 hus
    obtain ⟨closing, rfl, hcloses⟩ := exists_closing_filler hlast
    have hclosed : Closing (closing :: rest) := fun t ht => Option.some.inj ht ▸ hcloses
    obtain ⟨m, hm⟩ := hquery inner (closing :: rest) hinner hclosed
    rw [List.append_assoc]
    exact ⟨_, .group opens hm hcloses⟩
  | @unclosed _ _ _ opening _ _ _ opens query fits unclosed =>
    obtain ⟨front, rfl, hquery⟩ := query.follow
    refine ⟨opening :: front, [closingFiller], rfl, by simp [IsFiller], fun us rest hus hrest => ?_⟩
    obtain ⟨closing, rfl, hcloses⟩ := exists_closing_filler hus
    refine ⟨_, .group opens (hquery (closing :: rest) (.inr fun t ht => ?_)) hcloses⟩
    rw [← Option.some.inj ht, hcloses]
    exact List.mem_singleton_self _
  | @relation _ _ _ t relation _ _ _ word isRelation modifiers =>
    obtain ⟨front, rfl, hmodifiers⟩ := modifiers.completes
    refine ⟨t :: relation :: front, _, rfl, isFiller_words, fun us rest hus hrest => ?_⟩
    obtain ⟨filler, behind, hbehind, hw, hquoted, hclause⟩ := derives_two_fillers hus hrest
    obtain ⟨ms, hms⟩ := hmodifiers filler behind hw hquoted
    obtain ⟨m, hm⟩ := hclause _ _
    rw [hbehind]
    exact ⟨_, .indexed word isRelation hms hm⟩
  | @indexed _ _ _ t relation _ _ _ _ _ word isRelation modifiers _ ih =>
    obtain ⟨marks, rfl, hmodifiers⟩ := modifiers.follow
    obtain ⟨front, ks, rfl, hks, hclause⟩ := ih hdeep
    refine ⟨t :: relation :: (marks ++ front), ks, by simp, hks, fun us rest hus hrest => ?_⟩
    obtain ⟨m, hm⟩ := hclause us rest hus hrest
    rw [List.cons_append, List.cons_append, List.append_assoc]
    exact ⟨_, .indexed word isRelation (hmodifiers _ ((hfollows hks hus hrest _).append front)) hm⟩
  | @declaration _ _ _ t _ _ mark declaration =>
    obtain ⟨front, rfl, hdeclaration⟩ := declaration.completes
    refine ⟨t :: front, _, rfl, isFiller_words, fun us rest hus hrest => ?_⟩
    obtain ⟨word, behind, hbehind, hw, hquoted, hclause⟩ := derives_two_fillers hus hrest
    obtain ⟨d, hd⟩ := hdeclaration word behind hw hquoted
    obtain ⟨m, hm⟩ := hclause _ _
    rw [hbehind]
    exact ⟨_, .declaration mark hd (.query hm (derives_stop hrest m))⟩
  | @declared _ _ _ t _ _ _ _ _ mark declaration _ ih =>
    obtain ⟨words, rfl, hdeclaration⟩ := declaration.follow
    obtain ⟨front, ks, rfl, hks, hquery⟩ := ih hdeep
    refine ⟨t :: (words ++ front), ks, by simp, hks, fun us rest hus hrest => ?_⟩
    obtain ⟨m, hm⟩ := hquery us rest hus hrest
    rw [List.cons_append, List.append_assoc]
    exact ⟨_, .declaration mark (hdeclaration _ ((hfollows hks hus hrest _).append front)) hm⟩

end Completes

section Realize

theorem EndsWord.of_append {cs rest new : List Char} (h : EndsWord (cs ++ rest))
    (hnew : EndsWord new) : EndsWord (cs ++ new) := by
  cases cs with
  | nil => exact hnew
  | cons c cs => exact h

theorem EndsRun.of_append {cs rest new : List Char} (h : EndsRun (cs ++ rest))
    (hnew : EndsRun new) : EndsRun (cs ++ new) := by
  cases cs with
  | nil => exact hnew
  | cons c cs => exact h

theorem Takes.of_append {taken cs rest new : List Char} {k : Content}
    (h : Takes taken k (cs ++ rest)) (hw : EndsWord new) (hr : EndsRun new) :
    Takes taken k (cs ++ new) := by
  cases h with
  | punctuation mark => exact .punctuation mark
  | comparator run stop => exact .comparator run (stop.of_append hr)
  | literal quote closed => exact .literal quote closed
  | word bare run stop => exact .word bare run (stop.of_append hw)

/-- The same tokens are read where other text follows that does not run on. -/
theorem Reads.exists_front {s u : Cursor} {ts : List Token} (h : Reads s ts u) :
    ∃ front, s.rest = front ++ u.rest ∧ ∀ new, EndsWord new → EndsRun new →
      Reads ⟨front ++ new, s.position⟩ ts ⟨new, u.position⟩ := by
  induction h with
  | nil s => exact ⟨[], rfl, fun new _ _ => .nil _⟩
  | @cons s u v t ts hnext inner _ ih =>
    obtain ⟨gap, taken, hcuts⟩ := (cuts_of_next hnext).resolve_right fun h => inner h.1
    obtain ⟨front, hfront, hreads⟩ := ih
    refine ⟨gap ++ (taken ++ front), ?_, fun new hw hr => ?_⟩
    · rw [hcuts.rest, hfront, List.append_assoc, List.append_assoc]
    · have htakes := hcuts.takes
      rw [hfront] at htakes
      have hnext' := next_of_takes hcuts.space (htakes.of_append hw hr) s.position
      rw [← hcuts.token, ← hcuts.position] at hnext'
      rw [List.append_assoc, List.append_assoc]
      exact .cons hnext' inner (hreads new hw hr)

theorem Reads.exists_mid {s v : Cursor} {ts us : List Token} (h : Reads s (ts ++ us) v) :
    ∃ u, Reads s ts u := by
  induction ts generalizing s with
  | nil => exact ⟨s, .nil s⟩
  | cons t ts ih =>
    cases h with
    | cons hnext inner more =>
      obtain ⟨u, hu⟩ := ih more
      exact ⟨u, .cons hnext inner hu⟩

/-- Any row of fillers can be written, and no token in front runs on into it. -/
theorem exists_spells_fillers {ks : List Content} (h : ∀ k ∈ ks, IsFiller k) :
    ∃ cs, Spells cs ks (fun _ => True) ∧ EndsWord cs ∧ EndsRun cs := by
  induction ks with
  | nil => exact ⟨[], .nil _, nofun, nofun⟩
  | cons k ks ih =>
    obtain ⟨hk, hks⟩ := List.forall_mem_cons.1 h
    obtain ⟨ds, hds, -⟩ := ih hks
    have hone : ∃ cs, Spells cs [k] fun _ => True := by
      rcases hk with rfl | rfl
      · exact ⟨_, .quote "a"⟩
      · exact ⟨_, .punctuation (c := ')') rfl⟩
    obtain ⟨cs, hcs⟩ := hone
    refine ⟨' ' :: cs ++ ds, hcs.space.append hds fun _ _ => trivial, endsWord_cons rfl _, ?_⟩
    intro c hc
    cases hc
    rfl

/-- Tokens with which a text begins are those with which a longer one of any fillers begins. -/
theorem exists_tokenize_fillers {text : String} {front behind : List Token} {e : Ending}
    (hscan : Scan.ofText text = ⟨front ++ behind, e⟩) {ks : List Content}
    (hks : ∀ k ∈ ks, IsFiller k) :
    ∃ text' us p, tokenize text' = .ok (front ++ us ++ [.endOfText p]) ∧
      us.map Token.content = ks := by
  obtain ⟨u, hall, -⟩ := scan_ofText_eq_iff.1 hscan
  obtain ⟨u, hreads⟩ := hall.exists_mid
  obtain ⟨chars, -, hchars⟩ := hreads.exists_front
  obtain ⟨cs, hspells, hw, hr⟩ := exists_spells_fillers hks
  obtain ⟨us, q, hus, hmore⟩ := hspells [] trivial u.position
  rw [List.append_nil] at hmore
  have hcursor : Cursor.ofText (String.ofList (chars ++ cs)) = ⟨chars ++ cs, .start⟩ := by
    rw [Cursor.ofText, String.toList_ofList]
  have hboth := (hchars cs hw hr).append hmore
  rw [show (Cursor.ofText text).position = .start from rfl, ← hcursor] at hboth
  have hscan := hboth.scan_ofText
  exact ⟨_, us, q, tokenize_eq_ok (congrArg Scan.ending hscan) (congrArg Scan.tokens hscan), hus⟩

end Realize

end ContextQuery.Cql
