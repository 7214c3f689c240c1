import ContextQuery.Proofs.Cql.Grammar

namespace ContextQuery.Cql

/-- How a text is put together, with the tokens at which its terms, scopes and declarations
stand. -/
inductive Outline
  | term (t : Token)
  | indexed (index relation : Token) (modifiers : List Modifier) (inner : Outline)
  | declared (mark : Token) (declaration : String × String) (inner : Outline)
  | boolean (op : BooleanOp) (modifiers : List Modifier) (left right : Outline)

inductive OutlinePhrase
  | query
  | clause
  /-- The operators and operands behind the outline `left`. -/
  | chain (left : Outline)

inductive Outlines : OutlinePhrase → List Token → Outline → List Token → Prop
  | query {ts mid rest : List Token} {first o : Outline} (clause : Outlines .clause ts first mid)
    (chain : Outlines (.chain first) mid o rest) : Outlines .query ts o rest
  | stop {ts : List Token} {left : Outline} (stop : ∀ t ∈ ts.head?, t.operator? = none) :
    Outlines (.chain left) ts left ts
  | operator {t : Token} {ts mid after rest : List Token} {left right o : Outline} {op : BooleanOp}
    {ms : List Modifier} (keyword : t.operator? = some op) (modifiers : IsModifiers ts ms mid)
    (operand : Outlines .clause mid right after)
    (chain : Outlines (.chain (.boolean op ms left right)) after o rest) :
    Outlines (.chain left) (t :: ts) o rest
  | group {opening closing : Token} {ts rest : List Token} {o : Outline}
    (opens : opening.kind = .openParen) (query : Outlines .query ts o (closing :: rest))
    (closes : closing.kind = .closeParen) : Outlines .clause (opening :: ts) o rest
  | term {t : Token} {rest : List Token} (word : t.isWord = true)
    (stop : ∀ u ∈ rest.head?, u.isRelation = false) : Outlines .clause (t :: rest) (.term t) rest
  | indexed {t relation : Token} {ts mid rest : List Token} {ms : List Modifier} {o : Outline}
    (word : t.isWord = true) (isRelation : relation.isRelation = true)
    (modifiers : IsModifiers ts ms mid) (clause : Outlines .clause mid o rest) :
    Outlines .clause (t :: relation :: ts) (.indexed t relation ms o) rest
  | declaration {t : Token} {ts mid rest : List Token} {d : String × String} {o : Outline}
    (mark : t.isComparator ">" = true) (declaration : IsDeclaration ts d mid)
    (query : Outlines .query mid o rest) : Outlines .clause (t :: ts) (.declared t d o) rest

theorem isModifiers_unique {ts rest rest' : List Token} {ms ms' : List Modifier}
    (h : IsModifiers ts ms rest) (h' : IsModifiers ts ms' rest') : ms = ms' ∧ rest = rest' := by
  -- Both are what the reader of modifiers returns.
  have heq := (modifiers_of_isModifiers h (view_complete (p := .start) rest)).symm.trans
    (modifiers_of_isModifiers h' (view_complete rest'))
  exact Prod.mk.inj (Except.ok.inj heq)

theorem isDeclaration_unique {ts rest rest' : List Token} {d d' : String × String}
    (h : IsDeclaration ts d rest) (h' : IsDeclaration ts d' rest') : d = d' ∧ rest = rest' := by
  have heq := (declaration_of_isDeclaration h (view_complete (p := .start) rest)).symm.trans
    (declaration_of_isDeclaration h' (view_complete rest'))
  exact Prod.mk.inj (Except.ok.inj heq)

theorem isComparator_of_isWord {t : Token} (h : t.isWord = true) (s : String) :
    t.isComparator s = false := by
  rw [Bool.eq_false_iff, ne_eq, Token.isComparator_iff]
  rintro ⟨hk, -⟩
  simp [Token.isWord, hk] at h

/-- The tokens say what begins where, so they are put together in one way only. -/
theorem outlines_unique {phrase : OutlinePhrase} {ts rest rest' : List Token} {o o' : Outline}
    (h : Outlines phrase ts o rest) (h' : Outlines phrase ts o' rest') : o = o' ∧ rest = rest' := by
  induction h generalizing o' rest' with
  | query _ _ ihf ihc =>
    cases h' with
    | query clause chain =>
      obtain ⟨rfl, rfl⟩ := ihf clause
      exact ihc chain
  | stop stop =>
    cases h' with
    | stop => exact ⟨rfl, rfl⟩
    | operator keyword => cases (stop _ rfl).symm.trans keyword
  | operator keyword modifiers _ _ iho ihc =>
    cases h' with
    | stop stop => cases (stop _ rfl).symm.trans keyword
    | operator keyword' modifiers' operand chain =>
      cases keyword.symm.trans keyword'
      obtain ⟨rfl, rfl⟩ := isModifiers_unique modifiers modifiers'
      obtain ⟨rfl, rfl⟩ := iho operand
      exact ihc chain
  | group opens _ _ ih =>
    cases h' with
    | group _ query =>
      obtain ⟨rfl, hrest⟩ := ih query
      exact ⟨rfl, (List.cons.inj hrest).2⟩
    | term word => simp [Token.isWord, opens] at word
    | indexed word => simp [Token.isWord, opens] at word
    | declaration mark => simp [Token.isComparator, opens] at mark
  | term word stop =>
    cases h' with
    | group opens => simp [Token.isWord, opens] at word
    | term => exact ⟨rfl, rfl⟩
    | indexed _ isRelation => cases (stop _ rfl).symm.trans isRelation
    | declaration mark => cases (isComparator_of_isWord word _).symm.trans mark
  | indexed word isRelation modifiers _ ih =>
    cases h' with
    | group opens => simp [Token.isWord, opens] at word
    | term _ stop => cases (stop _ rfl).symm.trans isRelation
    | indexed _ _ modifiers' clause =>
      obtain ⟨rfl, rfl⟩ := isModifiers_unique modifiers modifiers'
      obtain ⟨rfl, rfl⟩ := ih clause
      exact ⟨rfl, rfl⟩
    | declaration mark => cases (isComparator_of_isWord word _).symm.trans mark
  | declaration mark declaration _ ih =>
    cases h' with
    | group opens => simp [Token.isComparator, opens] at mark
    | term word => cases (isComparator_of_isWord word _).symm.trans mark
    | indexed word => cases (isComparator_of_isWord word _).symm.trans mark
    | declaration _ declaration' query =>
      obtain ⟨rfl, rfl⟩ := isDeclaration_unique declaration declaration'
      obtain ⟨rfl, rfl⟩ := ih query
      exact ⟨rfl, rfl⟩

theorem Outlines.suffix {phrase : OutlinePhrase} {ts rest : List Token} {o : Outline}
    (h : Outlines phrase ts o rest) : rest <:+ ts := by
  induction h with
  | query _ _ ihf ihc => exact ihc.trans ihf
  | stop => exact List.suffix_refl _
  | operator _ modifiers _ _ iho ihc =>
    exact ihc.trans (iho.trans (modifiers.suffix.trans (List.suffix_cons _ _)))
  | group _ _ _ ih => exact (List.suffix_cons _ _).trans (ih.trans (List.suffix_cons _ _))
  | term => exact List.suffix_cons _ _
  | indexed _ _ modifiers _ ih =>
    exact ih.trans (modifiers.suffix.trans (List.suffix_append [_, _] _))
  | declaration _ declaration _ ih =>
    exact ih.trans (declaration.suffix.trans (List.suffix_cons _ _))

namespace Outline

/-- The declarations with their marks, in the order of the text. -/
def log : Outline → List (Token × String × String)
  | .term _ => []
  | .indexed _ _ _ inner => inner.log
  | .declared mark d inner => (mark, d) :: inner.log
  | .boolean _ _ left right => left.log ++ right.log

def declarations (o : Outline) : List (String × String) := o.log.map Prod.snd

def places : Outline → List Token
  | .term t => [t]
  | .indexed _ _ _ inner => inner.places
  | .declared mark _ inner => mark :: inner.places
  | .boolean _ _ left right => left.places ++ right.places

/-- The tree with each term resolved in the registry for its token. -/
def node (registry : Token → Registry) : Scope → Outline → Node
  | scope, .term t =>
    .clause (.resolve (registry t) scope.field scope.relation scope.modifiers t.lower)
  | _, .indexed index relation ms inner => inner.node registry ⟨index.lower, relation.lower, ms⟩
  | scope, .declared _ _ inner => inner.node registry scope
  | scope, .boolean op ms left right =>
    .boolean op ms (left.node registry scope) (right.node registry scope)

/-- The tree with the registry handed on from one part to the next. -/
def threaded : Scope → Registry → Outline → Node
  | scope, r, .term t => .clause (.resolve r scope.field scope.relation scope.modifiers t.lower)
  | _, r, .indexed index relation ms inner => inner.threaded ⟨index.lower, relation.lower, ms⟩ r
  | scope, r, .declared _ d inner => inner.threaded scope (r.register d.1 d.2)
  | scope, r, .boolean op ms left right =>
    .boolean op ms (left.threaded scope r) (right.threaded scope (r.registerAll left.declarations))

theorem log_sublist_places (o : Outline) : (o.log.map Prod.fst).Sublist o.places := by
  induction o with
  | term t => exact List.nil_sublist _
  | indexed index relation ms inner ih => exact ih
  | declared mark d inner ih => exact ih.cons_cons mark
  | boolean op ms left right ihl ihr =>
    rw [log, List.map_append]
    exact ihl.append ihr

end Outline

structure Outline.Denotes (o : Outline) (scope : Scope) (r : Registry) (m : Meaning) : Prop where
  node : m.node = o.threaded scope r
  declared : m.declared = o.declarations

/-- Is there an outline of the phrase that has its meaning? That of a chain begins with any outline
of what stands in front. -/
def Outlined : Phrase → Scope → Registry → List Token → Meaning → List Token → Prop
  | .query, scope, r, ts, m, rest => ∃ o, Outlines .query ts o rest ∧ o.Denotes scope r m
  | .clause, scope, r, ts, m, rest => ∃ o, Outlines .clause ts o rest ∧ o.Denotes scope r m
  | .chain left, scope, r, ts, m, rest => ∀ first : Outline, first.Denotes scope r left →
    ∃ o, Outlines (.chain first) ts o rest ∧ o.Denotes scope r m

/-- Whatever the grammar derives has an outline. -/
theorem outlined_of_derives {phrase : Phrase} {scope : Scope} {r : Registry} {ts rest : List Token}
    {m : Meaning} (h : Derives phrase scope r ts m rest) : Outlined phrase scope r ts m rest := by
  induction h with
  | query _ _ ihf ihc =>
    obtain ⟨first, hfirst, hd⟩ := ihf
    obtain ⟨o, ho, hm⟩ := ihc first hd
    exact ⟨o, .query hfirst ho, hm⟩
  | stop stop => exact fun first hfirst => ⟨first, .stop stop, hfirst⟩
  | operator keyword modifiers _ _ iho ihc =>
    intro first hfirst
    -- The operand stands behind the declarations of the outline that there is so far.
    rw [hfirst.declared] at iho
    obtain ⟨right, hright, hd⟩ := iho
    obtain ⟨o, ho, hm⟩ := ihc (.boolean _ _ first right) ⟨by
      rw [hfirst.node, hd.node]
      rfl, by
      rw [hfirst.declared, hd.declared]
      exact List.map_append.symm⟩
    exact ⟨o, .operator keyword modifiers hright ho, hm⟩
  | group opens _ closes ih =>
    obtain ⟨o, ho, hd⟩ := ih
    exact ⟨o, .group opens ho closes, hd.node, hd.declared⟩
  | term word stop => exact ⟨_, .term word stop, rfl, rfl⟩
  | indexed word isRelation modifiers _ ih =>
    obtain ⟨o, ho, hd⟩ := ih
    exact ⟨_, .indexed word isRelation modifiers ho, hd.node, hd.declared⟩
  | declaration mark declaration _ ih =>
    obtain ⟨o, ho, hd⟩ := ih
    exact ⟨_, .declaration mark declaration ho, hd.node, congrArg (_ :: ·) hd.declared⟩

/-- The places of an outline are among the tokens of its phrase, in the same order. Those of a chain
begin with what stands in front. -/
def OutlinePhrase.places : OutlinePhrase → List Token
  | .query | .clause => []
  | .chain left => left.places

theorem places_sublist {phrase : OutlinePhrase} {ts rest : List Token} {o : Outline}
    (h : Outlines phrase ts o rest) : (o.places ++ rest).Sublist (phrase.places ++ ts) := by
  induction h with
  | query _ _ ihf ihc => exact ihc.trans ihf
  | stop => exact .refl _
  | @operator t ts mid after rest left right o op ms _ modifiers _ _ iho ihc =>
    have hright : (right.places ++ after).Sublist (t :: ts) :=
      iho.trans (modifiers.suffix.trans (List.suffix_cons t ts)).sublist
    apply ihc.trans
    change ((left.places ++ right.places) ++ after).Sublist _
    rw [List.append_assoc]
    exact hright.append_left left.places
  | group _ _ _ ih => exact ((List.sublist_cons_self _ _).append_left _).trans (ih.cons _)
  | term => exact .refl _
  | @indexed t relation ts _ _ _ _ _ _ modifiers _ ih =>
    exact ih.trans (modifiers.suffix.trans (List.suffix_append [t, relation] ts)).sublist
  | declaration _ declaration _ ih => exact (ih.trans declaration.suffix.sublist).cons_cons _

def InOrder (ts : List Token) : Prop := ts.Pairwise (·.start.offset < ·.start.offset)

def declaredBefore (log : List (Token × String × String)) (t : Token) : List (String × String) :=
  (log.filter fun e => e.1.start.offset < t.start.offset).map Prod.snd

theorem declaredBefore_of_inOrder {before after : List (Token × String × String)} {t : Token}
    (h : InOrder (before.map Prod.fst ++ t :: after.map Prod.fst)) :
    declaredBefore (before ++ after) t = before.map Prod.snd := by
  obtain ⟨-, hafter, hbefore⟩ := List.pairwise_append.1 h
  have hfront : ∀ e ∈ before, e.1.start.offset < t.start.offset := fun e he =>
    hbefore e.1 (List.mem_map_of_mem he) t List.mem_cons_self
  have hback : ∀ e ∈ after, ¬ e.1.start.offset < t.start.offset := fun e he =>
    Nat.not_lt_of_lt ((List.pairwise_cons.1 hafter).1 e.1 (List.mem_map_of_mem he))
  rw [declaredBefore, List.filter_append, List.filter_eq_self.2 (by simpa using hfront),
    List.filter_eq_nil_iff.2 (by simpa using hback), List.append_nil]

/-- Handing the registry on is looking up, for each term, what the log has in front of it. -/
theorem threaded_eq_node (o : Outline) (r : Registry) (scope : Scope)
    (before after : List (Token × String × String))
    (h : InOrder (before.map Prod.fst ++ (o.places ++ after.map Prod.fst))) :
    o.threaded scope (r.registerAll (before.map Prod.snd)) =
      o.node (fun t => r.registerAll (declaredBefore (before ++ (o.log ++ after)) t)) scope := by
  induction o generalizing scope before after with
  | term t =>
    have hlog : declaredBefore (before ++ ((Outline.term t).log ++ after)) t = _ :=
      declaredBefore_of_inOrder h
    rw [Outline.threaded, Outline.node, hlog]
  | indexed index relation ms inner ih => exact ih _ before after h
  | declared mark d inner ih =>
    have hih := ih scope (before ++ [(mark, d)]) after (by simpa [Outline.places] using h)
    rw [List.map_append, ← Registry.registerAll_append, List.append_assoc] at hih
    exact hih
  | boolean op ms left right ihl ihr =>
    rw [Outline.places, List.append_assoc] at h
    -- Seen from one operand, what the other one declares is behind it or in front of it.
    have hl := ihl scope before (right.log ++ after) (h.sublist (by
      rw [List.map_append]
      exact ((right.log_sublist_places.append_right _).append_left _).append_left _))
    have hr := ihr scope (before ++ left.log) after (h.sublist (by
      rw [List.map_append, List.append_assoc]
      exact (left.log_sublist_places.append_right _).append_left _))
    rw [List.map_append, ← Registry.registerAll_append, List.append_assoc] at hr
    rw [Outline.threaded, Outline.node, Outline.declarations, Outline.log, List.append_assoc, hl,
      hr]

theorem Outlines.eq_iff {ts : List Token} {o : Outline} (h : Outlines .query ts o []) (o' : Outline) :
    Outlines .query ts o' [] ↔ o' = o :=
  ⟨fun h' => (outlines_unique h' h).1, fun he => he ▸ h⟩

theorem Outlines.sublist {ts : List Token} {o : Outline} (h : Outlines .query ts o []) :
    o.places.Sublist ts := by
  simpa [OutlinePhrase.places] using places_sublist h

section Text
variable {choice : ServerChoice} {text : String} {q : Query}

/-- A text that is read has an outline, and the registry and the tree are those of the outline. -/
theorem exists_outline_of_read (h : read choice text = .ok q) : ∃ ts p o,
    tokenize text = .ok (ts ++ [.endOfText p]) ∧ Outlines .query ts o [] ∧
      q.registry = Registry.seeded.registerAll o.declarations ∧
      q.root = o.node (fun t => Registry.seeded.registerAll (declaredBefore o.log t))
        (.ofChoice choice) := by
  obtain ⟨m, hm, rfl⟩ := means_of_read h
  obtain ⟨ts, p, ht, hd⟩ := hm.derives
  obtain ⟨o, ho, hdenotes⟩ := outlined_of_derives hd
  obtain ⟨u, hreads, -⟩ := reads_of_tokenize ht
  have hnode := threaded_eq_node o .seeded (.ofChoice choice) [] []
    (by simpa [InOrder] using hreads.sorted.2.sublist ho.sublist)
  rw [List.append_nil] at hnode
  exact ⟨ts, p, o, ht, ho, congrArg _ hdenotes.declared, hdenotes.node.trans hnode⟩

/-- A text that is read has one outline, whose terms and declarations follow each other as in the
text. The registry has all declarations, and each term is resolved with those in front of it. -/
theorem outline_of_read (h : read choice text = .ok q) : ∃ ts p o,
    tokenize text = .ok (ts ++ [.endOfText p]) ∧ (∀ o', Outlines .query ts o' [] ↔ o' = o) ∧
      o.places.Sublist ts ∧ InOrder ts ∧
      q.registry = Registry.seeded.registerAll o.declarations ∧
      q.root = o.node (fun t => Registry.seeded.registerAll (declaredBefore o.log t))
        (.ofChoice choice) := by
  obtain ⟨ts, p, o, ht, ho, hregistry, hroot⟩ := exists_outline_of_read h
  obtain ⟨u, hreads, -⟩ := reads_of_tokenize ht
  exact ⟨ts, p, o, ht, ho.eq_iff, ho.sublist, hreads.sorted.2, hregistry, hroot⟩

end Text

/-- An index in front of two declarations of its prefix, and again behind the group that has
them. -/
def redeclaringText : String := "a.t = (>a=u b or >a=v c) and a.t = d"

def clauseAfter (ds : List (String × String)) (term : String) : Node :=
  .clause (.resolve (Registry.seeded.registerAll ds) "a.t" "=" [] term)

def redeclaringMeaning : Meaning :=
  ⟨.boolean .and [] (.boolean .or [] (clauseAfter [("a", "u")] "b")
    (clauseAfter [("a", "u"), ("a", "v")] "c")) (clauseAfter [("a", "u"), ("a", "v")] "d"),
    5, [("a", "u"), ("a", "v")]⟩

theorem means_redeclaringText : Means .standard redeclaringText redeclaringMeaning := by
  have htokens : tokenize redeclaringText = .ok ([⟨.bareword, "a.t", ⟨1, 1, 0⟩, 3⟩,
      ⟨.comparator, "=", ⟨1, 5, 4⟩, 5⟩, ⟨.openParen, "(", ⟨1, 7, 6⟩, 7⟩,
      ⟨.comparator, ">", ⟨1, 8, 7⟩, 8⟩, ⟨.bareword, "a", ⟨1, 9, 8⟩, 9⟩,
      ⟨.comparator, "=", ⟨1, 10, 9⟩, 10⟩, ⟨.bareword, "u", ⟨1, 11, 10⟩, 11⟩,
      ⟨.bareword, "b", ⟨1, 13, 12⟩, 13⟩, ⟨.bareword, "or", ⟨1, 15, 14⟩, 16⟩,
      ⟨.comparator, ">", ⟨1, 18, 17⟩, 18⟩, ⟨.bareword, "a", ⟨1, 19, 18⟩, 19⟩,
      ⟨.comparator, "=", ⟨1, 20, 19⟩, 20⟩, ⟨.bareword, "v", ⟨1, 21, 20⟩, 21⟩,
      ⟨.bareword, "c", ⟨1, 23, 22⟩, 23⟩, ⟨.closeParen, ")", ⟨1, 24, 23⟩, 24⟩,
      ⟨.bareword, "and", ⟨1, 26, 25⟩, 28⟩, ⟨.bareword, "a.t", ⟨1, 30, 29⟩, 32⟩,
      ⟨.comparator, "=", ⟨1, 34, 33⟩, 34⟩, ⟨.bareword, "d", ⟨1, 36, 35⟩, 36⟩] ++
      [.endOfText ⟨1, 37, 36⟩]) := by decide +kernel
  refine ⟨by decide, ⟨_, _, htokens, ?_⟩, by decide, by decide⟩
  exact .query (.indexed rfl rfl (.none (by decide)) (.group rfl
      (.query (.declaration rfl (.named rfl rfl (.bare rfl (.stop (by decide))))
        (.query (.term rfl (by decide)) (.operator (by decide) (.none (by decide))
          (.declaration rfl (.named rfl rfl (.bare rfl (.stop (by decide))))
            (.query (.term rfl (by decide)) (.stop (by decide)))) (.stop (by decide)))))
        (.stop (by decide))) (by decide)))
    (.operator (by decide) (.none (by decide))
      (.indexed rfl rfl (.none (by decide)) (.term rfl nofun)) (.stop nofun))

def redeclaringQuery : Query :=
  ⟨some redeclaringText, redeclaringMeaning.node,
    Registry.seeded.registerAll redeclaringMeaning.declared, .standard⟩

theorem outline_of_read_redeclaringText :
    read .standard redeclaringText = .ok redeclaringQuery ∧ ∃ ts p o,
      tokenize redeclaringText = .ok (ts ++ [.endOfText p]) ∧
        (∀ o', Outlines .query ts o' [] ↔ o' = o) ∧ o.places.Sublist ts ∧ InOrder ts ∧
        redeclaringQuery.registry = Registry.seeded.registerAll o.declarations ∧
        redeclaringQuery.root = o.node
          (fun t => Registry.seeded.registerAll (declaredBefore o.log t)) (.ofChoice .standard) := by
  have hread : read .standard redeclaringText = .ok redeclaringQuery :=
    read_of_means means_redeclaringText
  exact ⟨hread, outline_of_read hread⟩

end ContextQuery.Cql
