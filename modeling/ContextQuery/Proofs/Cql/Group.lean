import ContextQuery.Proofs.Cql.Echo
import ContextQuery.Proofs.Cql.Spelling

namespace ContextQuery.Cql

/-- Is the token the same one, so many bytes further on? -/
structure Token.Shifted (k : Nat) (t t' : Token) : Prop where
  content : t'.content = t.content
  start : t'.start.offset = t.start.offset + k
  stop : t'.stop = t.stop + k

theorem Token.Shifted.echoes {k : Nat} {t t' : Token} (h : t.Shifted k t') : t.Echoes t' := by
  have hvalue : t'.value = t.value := congrArg Prod.snd h.content
  exact ⟨congrArg Prod.fst h.content, congrArg Text.lowerCase hvalue, fun _ => hvalue⟩

/-- Tokens that are moved together have the same gaps. -/
theorem echo_of_shifted {k : Nat} {tail ts us : List Token}
    (h : List.Forall₂ (Token.Shifted k) ts us) : Echo tail ts (us ++ tail) := by
  induction h with
  | nil => exact .done
  | @cons t t' ts us head more ih =>
    refine .cons head.echoes (fun u hu u' hu' => ?_) ih
    cases more with
    | nil => cases hu
    | cons next _ =>
      cases hu
      cases hu'
      have htouch : t.stop + k = u.start.offset + k ↔ t.stop = u.start.offset := by omega
      rw [Bool.eq_iff_iff, Token.touches, Token.touches, beq_iff_eq, beq_iff_eq, head.stop,
        next.start]
      exact htouch

theorem EndsWord.append {rest more : List Char} (h : EndsWord rest) (h' : EndsWord more) :
    EndsWord (rest ++ more) := by
  cases rest with
  | nil => exact h'
  | cons c rest => exact h

theorem EndsRun.append {rest more : List Char} (h : EndsRun rest) (h' : EndsRun more) :
    EndsRun (rest ++ more) := by
  cases rest with
  | nil => exact h'
  | cons c rest => exact h

theorem Takes.append {taken rest more : List Char} {k : Content} (h : Takes taken k rest)
    (hw : EndsWord more) (hr : EndsRun more) : Takes taken k (rest ++ more) := by
  cases h with
  | punctuation mark => exact .punctuation mark
  | comparator run stop => exact .comparator run (stop.append hr)
  | literal quote closed => exact .literal quote closed
  | word bare run stop => exact .word bare run (stop.append hw)

/-- Tokens are read in the same way elsewhere, where the text goes on with a delimiter. -/
theorem Reads.relocate {s u : Cursor} {ts : List Token} (h : Reads s ts u) {more : List Char}
    (hw : EndsWord more) (hr : EndsRun more) {k : Nat} {p : Position}
    (hp : p.offset = s.position.offset + k) :
    ∃ us q, Reads ⟨s.rest ++ more, p⟩ us ⟨u.rest ++ more, q⟩ ∧
      List.Forall₂ (Token.Shifted k) ts us := by
  induction h generalizing p with
  | nil s => exact ⟨[], p, .nil _, .nil⟩
  | @cons s u v t ts hnext inner _ ih =>
    obtain ⟨gap, taken, hcuts⟩ := (cuts_of_next hnext).resolve_right fun h => inner h.1
    -- The same characters are taken, so every place from here on is moved as far as the first.
    have hnext' := next_of_takes hcuts.space (hcuts.takes.append hw hr) p
    have hplace : ((p.after gap).after taken).offset = u.position.offset + k := by
      simp only [hcuts.position, offset_after]
      omega
    obtain ⟨us, q, hreads, hshifted⟩ := ih hplace
    have hrest : gap ++ (taken ++ (u.rest ++ more)) = s.rest ++ more := by
      rw [hcuts.rest, List.append_assoc, List.append_assoc]
    rw [hrest] at hnext'
    refine ⟨_, q, .cons hnext' inner hreads, .cons ⟨rfl, ?_, ?_⟩ hshifted⟩
    · rw [hcuts.token]
      simp only [Content.at, offset_after]
      omega
    · rw [hcuts.token]
      simp only [Content.at, offset_after]
      omega

/-- The tokens of a text are read within a longer one, and what goes on behind it is read as from
there. -/
theorem reads_within {text : String} {ts : List Token} {e : Position}
    (h : tokenize text = .ok (ts ++ [.endOfText e])) {more : List Char} (hw : EndsWord more)
    (hr : EndsRun more) (p : Position) :
    ∃ us q, List.Forall₂ (Token.Shifted p.offset) ts us ∧
      ∀ {t : Token} {vs : List Token} {v : Cursor}, Reads ⟨more, q⟩ (t :: vs) v →
        Reads ⟨text.toList ++ more, p⟩ (us ++ t :: vs) v := by
  obtain ⟨u, hreads, hspace⟩ := reads_of_tokenize h
  have hp : p.offset = (Cursor.ofText text).position.offset + p.offset := (Nat.zero_add _).symm
  obtain ⟨us, q, hreads', hshifted⟩ := hreads.relocate hw hr hp
  refine ⟨us, q.after u.rest, hshifted, fun hmore => hreads'.append ?_⟩
  exact hmore.of_next_eq (Cursor.next_append_of_isSpace hspace more q)

def grouped (text : String) : String := "(" ++ text ++ ")"

theorem toList_grouped (text : String) : (grouped text).toList = '(' :: (text.toList ++ [')']) := by
  simp [grouped]

/-- The tokens of a text in parentheses. -/
theorem reads_grouped {text : String} {ts : List Token} {e : Position}
    (h : tokenize text = .ok (ts ++ [.endOfText e])) (p : Position) :
    ∃ opening closing us k q,
      Reads ⟨(grouped text).toList, p⟩ (opening :: (us ++ [closing])) ⟨[], q⟩ ∧
      opening.kind = .openParen ∧ closing.kind = .closeParen ∧
      List.Forall₂ (Token.Shifted k) ts us := by
  have hopen : Takes ['('] (.openParen, "(") (text.toList ++ [')']) := .punctuation rfl
  have hclose : Takes [')'] (.closeParen, ")") [] := .punctuation rfl
  have hopening := next_of_takes_nil hopen p
  have hw : EndsWord [')'] := endsWord_cons rfl []
  have hr : EndsRun [')'] := by
    intro c hc
    cases hc
    rfl
  obtain ⟨us, q, hshifted, hreads⟩ := reads_within h hw hr (p.after ['('])
  have hclosing := next_of_takes_nil hclose q
  rw [toList_grouped]
  have hlast := hreads (.cons hclosing (kind_of_takes hclose) (.nil _))
  exact ⟨_, _, us, _, _, .cons hopening (kind_of_takes hopen) hlast, rfl, rfl, hshifted⟩

/-- A query in parentheses means what it means alone. -/
theorem derives_grouped {scope : Scope} {r : Registry} {ts us : List Token} {m : Meaning}
    {opening closing : Token} {k : Nat} (h : Derives .query scope r ts m [])
    (hshifted : List.Forall₂ (Token.Shifted k) ts us) (ho : opening.kind = .openParen)
    (hc : closing.kind = .closeParen) :
    Derives .clause scope r (opening :: (us ++ [closing])) ⟨m.node, m.nesting + 1, m.declared⟩
      [] := by
  have htail : Closing [closing] := by
    intro t ht
    cases ht
    exact hc
  obtain ⟨rest, hd, he⟩ := derives_of_echo h (echo_of_shifted hshifted) htail
  cases he
  exact .group ho hd hc

variable {choice : ServerChoice} {text : String} {m : Meaning}

theorem means_grouped (h : Means choice text m) (hn : m.nesting + 1 ≤ maxNesting) :
    Means choice (grouped text) ⟨m.node, m.nesting + 1, m.declared⟩ := by
  obtain ⟨ts, e, htokens, hd⟩ := h.derives
  obtain ⟨opening, closing, us, k, q, hreads, ho, hc, hshifted⟩ := reads_grouped htokens .start
  have hscan := hreads.scan_ofText
  refine ⟨Text.isBlankText_of_mem (c := '(') (by simp [grouped]) (by decide), ⟨_, q,
    tokenize_eq_ok (congrArg Scan.ending hscan) (congrArg Scan.tokens hscan), ?_⟩, hn, h.height⟩
  exact .query (derives_grouped hd hshifted ho hc) (.stop nofun)

def IsSingle (text : String) (t : Token) : Prop := ∃ p, tokenize text = .ok [t, .endOfText p]

/-- A single token in front of a blank and more. -/
theorem reads_single {t : Token} (h : IsSingle text t) (more : List Char) (p : Position) :
    ∃ t' q, t.Echoes t' ∧ ∀ {u : Token} {vs : List Token} {v : Cursor},
      Reads ⟨more, q⟩ (u :: vs) v → Reads ⟨text.toList ++ ' ' :: more, p⟩ (t' :: u :: vs) v := by
  obtain ⟨e, he⟩ : ∃ e, tokenize text = .ok ([t] ++ [Token.endOfText e]) := h
  have hw : EndsWord (' ' :: more) := endsWord_cons rfl more
  have hr : EndsRun (' ' :: more) := by
    intro c hc
    cases hc
    rfl
  obtain ⟨us, q, hshifted, hreads⟩ := reads_within he hw hr p
  cases hshifted with
  | cons head hnil =>
    cases hnil
    exact ⟨_, q.advance ' ', head.echoes, fun hmore =>
      hreads (hmore.of_next_eq (Cursor.next_of_isSpace rfl more q))⟩

def indexed (index relation text : String) : String :=
  index ++ " " ++ relation ++ " " ++ grouped text

/-- An index and a relation hold for the query behind them as the server's choice would, and the
server's own choice no longer counts. -/
theorem means_indexed {index relation : String} {w r : Token} (hindex : IsSingle index w)
    (hw : w.isWord = true) (hrelation : IsSingle relation r) (hr : r.isRelation = true)
    (h : Means ⟨w.lower, r.lower⟩ text m) (hn : m.nesting + 2 ≤ maxNesting) :
    Means choice (indexed index relation text) ⟨m.node, m.nesting + 2, m.declared⟩ := by
  obtain ⟨ts, e, htokens, hd⟩ := h.derives
  -- The text is read piece by piece, each from where the one in front of it ends.
  obtain ⟨w', p₁, hechow, hreadsw⟩ :=
    reads_single hindex (relation.toList ++ ' ' :: (grouped text).toList) .start
  obtain ⟨r', p₂, hechor, hreadsr⟩ := reads_single hrelation (grouped text).toList p₁
  obtain ⟨opening, closing, us, k, q, hreads, ho, hc, hshifted⟩ := reads_grouped htokens p₂
  have hall := hreadsw (hreadsr hreads)
  have htext : (indexed index relation text).toList =
      index.toList ++ ' ' :: (relation.toList ++ ' ' :: (grouped text).toList) := by
    simp [indexed]
  rw [← htext] at hall
  have hscan := hall.scan_ofText
  have hmodifiers : IsModifiers (opening :: (us ++ [closing])) []
      (opening :: (us ++ [closing])) := by
    refine .none fun t ht => ?_
    rw [← Option.some.inj ht, ho]
    decide
  have hclause := derives_grouped hd hshifted ho hc
  rw [Scope.ofChoice, ← hechow.lower, ← hechor.lower] at hclause
  refine ⟨Text.isBlankText_of_mem (c := '(') (by simp [indexed, grouped]) (by decide), ⟨_, q,
    tokenize_eq_ok (congrArg Scan.ending hscan) (congrArg Scan.tokens hscan), ?_⟩, hn, h.height⟩
  exact .query (.indexed (hechow.isWord.trans hw) (hechor.isRelation.trans hr) hmodifiers hclause)
    (.stop nofun)

/-- Is the query read from the text, with no clause of it nested more than `n` deep? -/
def ReadsNested (n : Nat) (choice : ServerChoice) (text : String) (q : Query) : Prop :=
  read choice text = .ok q ∧ ∃ m, Means choice text m ∧ m.nesting ≤ n

theorem ReadsNested.read_of_means {q : Query} {n k : Nat} (h : ReadsNested n choice text q)
    {outer : ServerChoice} {longer : String}
    (hlonger : ∀ m, Means choice text m → m.nesting ≤ n →
      Means outer longer ⟨m.node, m.nesting + k, m.declared⟩) :
    read outer longer = .ok ⟨some longer, q.root, q.registry, outer⟩ := by
  obtain ⟨hread, m, hm, hn⟩ := h
  obtain rfl := Except.ok.inj ((Cql.read_of_means hm).symm.trans hread)
  exact (Cql.read_of_means (hlonger m hm hn) :)

/-- A word and a relation in front of a query in parentheses give the tree and the registry that the
query alone has with them for the server's choice; and parentheses alone change neither. -/
theorem read_indexed_grouped (text : String) (q : Query) :
    (∀ (index relation : String) (w r : Token), IsSingle index w → w.isWord = true →
      IsSingle relation r → r.isRelation = true →
      ReadsNested (maxNesting - 2) ⟨w.lower, r.lower⟩ text q → ∀ choice : ServerChoice,
        read choice (indexed index relation text) =
          .ok ⟨some (indexed index relation text), q.root, q.registry, choice⟩) ∧
    ∀ choice : ServerChoice, ReadsNested (maxNesting - 1) choice text q →
      read choice (grouped text) = .ok ⟨some (grouped text), q.root, q.registry, choice⟩ := by
  have hmax : maxNesting = 128 := rfl
  constructor
  · intro index relation w r hindex hw hrelation hr hq choice
    exact hq.read_of_means fun m hm hn => means_indexed hindex hw hrelation hr hm (by omega)
  · intro choice hq
    exact hq.read_of_means fun m hm hn => means_grouped hm (by omega)

def declaringText : String := ">d='u:x' d.t <> 'b' or c"

def declaringMeaning : Meaning :=
  ⟨.boolean .or [] (.clause (.resolve (.register .seeded "d" "u:x") "d.t" "<>" [] "b"))
    (.clause (.resolve (.register .seeded "d" "u:x") "and" "any" [] "c")), 3, [("d", "u:x")]⟩

theorem means_declaringText : Means ⟨"and", "any"⟩ declaringText declaringMeaning := by
  have htokens : tokenize declaringText = .ok ([⟨.comparator, ">", ⟨1, 1, 0⟩, 1⟩,
      ⟨.bareword, "d", ⟨1, 2, 1⟩, 2⟩, ⟨.comparator, "=", ⟨1, 3, 2⟩, 3⟩,
      ⟨.quoted, "u:x", ⟨1, 4, 3⟩, 8⟩, ⟨.bareword, "d.t", ⟨1, 10, 9⟩, 12⟩,
      ⟨.comparator, "<>", ⟨1, 14, 13⟩, 15⟩, ⟨.quoted, "b", ⟨1, 17, 16⟩, 19⟩,
      ⟨.bareword, "or", ⟨1, 21, 20⟩, 22⟩, ⟨.bareword, "c", ⟨1, 24, 23⟩, 24⟩] ++
      [.endOfText ⟨1, 25, 24⟩]) := by decide +kernel
  refine ⟨by decide, ⟨_, _, htokens, ?_⟩, by decide, by decide⟩
  exact .query (.declaration rfl (.named rfl rfl (.quoted rfl))
    (.query (.indexed rfl rfl (.none (by decide)) (.term rfl (by decide)))
      (.operator (by decide) (.none (by decide)) (.term rfl nofun) (.stop nofun)))) (.stop nofun)

def declaringQuery : Query :=
  ⟨some declaringText, declaringMeaning.node, .register .seeded "d" "u:x", ⟨"and", "any"⟩⟩

theorem read_indexed_grouped_declaringText :
    ReadsNested (maxNesting - 2) ⟨"and", "any"⟩ declaringText declaringQuery ∧
      read .standard (indexed " AND" "\"any\"" declaringText) =
        .ok ⟨some " AND \"any\" (>d='u:x' d.t <> 'b' or c)", declaringQuery.root,
          declaringQuery.registry, .standard⟩ ∧
      read ⟨"and", "any"⟩ (grouped declaringText) =
        .ok ⟨some "(>d='u:x' d.t <> 'b' or c)", declaringQuery.root, declaringQuery.registry,
          ⟨"and", "any"⟩⟩ := by
  have hread : read ⟨"and", "any"⟩ declaringText = .ok declaringQuery :=
    read_of_means means_declaringText
  have hindex : IsSingle " AND" ⟨.bareword, "AND", ⟨1, 2, 1⟩, 4⟩ :=
    ⟨⟨1, 5, 4⟩, by decide +kernel⟩
  have hrelation : IsSingle "\"any\"" ⟨.quoted, "any", ⟨1, 1, 0⟩, 5⟩ :=
    ⟨⟨1, 6, 5⟩, by decide +kernel⟩
  have hq (n : Nat) (hn : 3 ≤ n) : ReadsNested n ⟨"and", "any"⟩ declaringText declaringQuery :=
    ⟨hread, _, means_declaringText, hn⟩
  obtain ⟨h, h'⟩ := read_indexed_grouped declaringText declaringQuery
  exact ⟨hq _ (by decide), h _ _ _ _ hindex rfl hrelation rfl (hq _ (by decide)) .standard,
    h' ⟨"and", "any"⟩ (hq _ (by decide))⟩

end ContextQuery.Cql
