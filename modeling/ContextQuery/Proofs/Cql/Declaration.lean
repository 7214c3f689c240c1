import ContextQuery.Proofs.Cql.Calls
import ContextQuery.Proofs.Cql.Outline

namespace ContextQuery.Cql

/-- Do the tokens `run` go on with an identifier behind `first`, each where the one in front of it
ends? They are slashes and words and, behind a prefix, comparators. -/
structure Glued (named : Bool) (first : Token) (run : List Token) : Prop where
  kinds : ∀ t ∈ run,
    t.kind = .slash ∨ t.kind = .bareword ∨ named = true ∧ t.kind = .comparator
  touching : (first :: run).IsChain fun t u => t.stop = u.start.offset

/-- Do the tokens `following` begin with the run, and with no longer one? -/
structure IsLongestRun (named : Bool) (first : Token) (following run rest : List Token) : Prop where
  split : following = run ++ rest
  glued : Glued named first run
  longest : ∀ longer, longer <+: following → Glued named first longer → longer <+: run

/-- Is the identifier written without quotes, as one piece of the text that begins with the token
`first`? It is read in lower case. -/
structure IsWritten (text : List Char) (named : Bool) (first : Token)
    (following rest : List Token) (id : String) : Prop where
  bareword : first.kind = .bareword
  piece : ∃ run, IsLongestRun named first following run rest ∧
    id = String.join ((first :: run).map Token.lower) ∧
    ∃ front back, text = front ++ ((String.join ((first :: run).map Token.value)).toList ++ back) ∧
      first.start = .behind front ∧
      ∀ c ∈ (String.join ((first :: run).map Token.value)).toList, isSpace c = false

/-- The tokens behind the mark of a declaration up to its identifier, which begins with the last
token: a prefix and a sign, or nothing. -/
inductive Heads : Bool → String → List Token → Token → List Token → Prop
  | named {word sign first : Token} {following : List Token} (isWord : word.isWord = true)
    (equals : sign.isComparator "=" = true) :
    Heads true word.lower (word :: sign :: first :: following) first following
  | unnamed {first : Token} {following : List Token}
    (noSign : ∀ t ∈ following.head?, t.isComparator "=" = false) :
    Heads false "default" (first :: following) first following

inductive Outline.IsPart (part : Outline) : Outline → Prop
  | self : IsPart part part
  | indexed {index relation : Token} {ms : List Modifier} {inner : Outline}
    (h : IsPart part inner) : IsPart part (.indexed index relation ms inner)
  | declared {mark : Token} {d : String × String} {inner : Outline} (h : IsPart part inner) :
    IsPart part (.declared mark d inner)
  | left {op : BooleanOp} {ms : List Modifier} {left right : Outline} (h : IsPart part left) :
    IsPart part (.boolean op ms left right)
  | right {op : BooleanOp} {ms : List Modifier} {left right : Outline} (h : IsPart part right) :
    IsPart part (.boolean op ms left right)

/-- Does the declaration stand in the text like this, as a part of the outline? Behind its mark
there is a prefix with a sign or, for the prefix `default`, nothing, and then the identifier, quoted
or not. The query in which the declaration holds begins with the first token that is not part of
it. -/
def Outline.Declares (o : Outline) (text : List Char) (ts : List Token) (mark : Token)
    (key id : String) : Prop :=
  ∃ before behind named first following rest inner after, ts = before ++ mark :: behind ∧
    mark.isComparator ">" = true ∧ Heads named key behind first following ∧
    (first.kind = .quoted ∧ id = first.lower ∧ rest = following ∨
      IsWritten text named first following rest id) ∧
    Outlines .query rest inner after ∧ Outline.IsPart (.declared mark (key, id) inner) o

section Run
variable {named : Bool} {first t : Token} {following run rest : List Token}

theorem Token.continues_iff : t.continues named = true ↔
    t.kind = .slash ∨ t.kind = .bareword ∨ named = true ∧ t.kind = .comparator := by
  simp [continues, or_assoc]

theorem Token.touches_iff {t u : Token} : t.touches u = true ↔ t.stop = u.start.offset := by
  simp [touches]

theorem glued_nil : Glued named first [] := ⟨nofun, .singleton _⟩

theorem glued_cons_iff : Glued named first (t :: run) ↔
    (t.continues named = true ∧ first.touches t = true) ∧ Glued named t run := by
  rw [Token.continues_iff, Token.touches_iff]
  constructor
  · rintro ⟨hkinds, htouching⟩
    obtain ⟨hfirst, hrest⟩ := List.isChain_cons_cons.1 htouching
    obtain ⟨hkind, hmore⟩ := List.forall_mem_cons.1 hkinds
    exact ⟨⟨hkind, hfirst⟩, hmore, hrest⟩
  · rintro ⟨⟨hkind, hfirst⟩, hmore, hrest⟩
    exact ⟨List.forall_mem_cons.2 ⟨hkind, hmore⟩, List.isChain_cons_cons.2 ⟨hfirst, hrest⟩⟩

/-- The run that the grammar has is the longest. -/
theorem isLongestRun_of_isRun (h : IsRun named first following run rest) :
    IsLongestRun named first following run rest := by
  induction h with
  | @stop last ts gap =>
    refine ⟨rfl, glued_nil, fun longer hprefix hglued => ?_⟩
    cases longer with
    | nil => exact List.prefix_refl _
    | cons t longer =>
      obtain ⟨more, rfl⟩ := hprefix
      exact absurd (glued_cons_iff.1 hglued).1 (gap t rfl)
  | @step last t ts run rest continues touches _ ih =>
    refine ⟨congrArg (t :: ·) ih.split, glued_cons_iff.2 ⟨⟨continues, touches⟩, ih.glued⟩,
      fun longer hprefix hglued => ?_⟩
    cases longer with
    | nil => exact List.nil_prefix
    | cons u longer =>
      obtain ⟨rfl, hmore⟩ := List.cons_prefix_cons.1 hprefix
      exact List.cons_prefix_cons.2 ⟨rfl, ih.longest longer hmore (glued_cons_iff.1 hglued).2⟩

end Run

section Piece
variable {text : List Char} {ts : List Token} {t first : Token} {run : List Token}

structure Token.StandsAs (text : List Char) (t : Token) : Prop where
  covers : ∃ front, t.Covers text front t.value.toList
  solid : ∀ c ∈ t.value.toList, isSpace c = false

theorem isSpace_of_isComparatorChar {c : Char} (h : isComparatorChar c = true) :
    isSpace c = false := by
  simp only [isComparatorChar, Bool.or_eq_true, beq_iff_eq] at h
  rcases h with (rfl | rfl) | rfl <;> decide

/-- A lexeme that is no literal is the value of its token. -/
theorem eq_value_of_isLexeme {taken behind : List Char} {k : Content} (h : IsLexeme taken k behind)
    (hk : k.1 ≠ .quoted) : taken = k.2.toList ∧ ∀ c ∈ taken, isSpace c = false := by
  cases h with
  | openParen | closeParen | slash => exact ⟨rfl, List.forall_mem_singleton.2 (by decide)⟩
  | comparator _ run =>
    exact ⟨String.toList_ofList.symm, fun c hc => isSpace_of_isComparatorChar (run c hc)⟩
  | literal => exact absurd rfl hk
  | word _ _ run =>
    refine ⟨String.toList_ofList.symm, fun c hc => ?_⟩
    have hc := run c hc
    simp only [isDelimiter, Bool.or_eq_false_iff] at hc
    exact hc.2

theorem Parts.standsAs (h : Parts .start text [] ts) (ht : t ∈ ts) (hk : t.kind ≠ .quoted) :
    t.StandsAs text := by
  obtain ⟨front, taken, behind, hsplit, hlexeme, hstart, hstop⟩ := h.lexemes t ht
  obtain ⟨rfl, hsolid⟩ := eq_value_of_isLexeme hlexeme hk
  rw [List.append_nil] at hlexeme
  rw [Position.after_start] at hstart
  refine ⟨⟨front, ⟨behind, hsplit, .inl hlexeme⟩, hstart, ?_⟩, hsolid⟩
  rw [hstop, hstart, byteLength_append]
  rfl

/-- Tokens without a gap between them are one piece of the text. -/
theorem exists_piece (hstands : ∀ t ∈ first :: run, t.StandsAs text)
    (htouching : (first :: run).IsChain fun t u => t.stop = u.start.offset) :
    ∃ front back, text = front ++ ((first :: run).flatMap (·.value.toList) ++ back) ∧
      first.start = .behind front := by
  induction run generalizing first with
  | nil =>
    obtain ⟨⟨front, ⟨back, hsplit, -⟩, hstart, -⟩, -⟩ := hstands first List.mem_cons_self
    exact ⟨front, back, by simpa using hsplit, hstart⟩
  | cons t run ih =>
    obtain ⟨hfirst, hmore⟩ := List.forall_mem_cons.1 hstands
    obtain ⟨htouches, hchain⟩ := List.isChain_cons_cons.1 htouching
    obtain ⟨between, back, hbetween, hplace⟩ := ih hmore hchain
    obtain ⟨⟨front, ⟨behind, hsplit, -⟩, hstart, hstop⟩, -⟩ := hfirst
    rw [hstop, hplace] at htouches
    -- The second token begins behind as many bytes as the first one ends.
    rw [← List.append_assoc] at hsplit
    obtain ⟨rfl, -⟩ := append_inj_of_byteLength_eq (hsplit.symm.trans hbetween) htouches
    exact ⟨front, back, by rw [hbetween, List.flatMap_cons]; simp, hstart⟩

end Piece

section Identifier
variable {text : List Char} {ts following rest : List Token} {first : Token} {named : Bool}
  {id : String}

theorem isWritten_of_isIdentifier (hparts : Parts .start text [] ts)
    (hmem : first :: following ⊆ ts) (h : IsIdentifier named (first :: following) id rest) :
    first.kind = .quoted ∧ id = first.lower ∧ rest = following ∨
      IsWritten text named first following rest id := by
  cases h with
  | quoted kind => exact .inl ⟨kind, rfl, rfl⟩
  | @bare _ _ run _ kind more =>
    have hlongest := isLongestRun_of_isRun more
    have hstands : ∀ t ∈ first :: run, t.StandsAs text := by
      have hrun : first :: run ⊆ ts := fun t ht => hmem (by
        rw [hlongest.split]
        exact List.mem_append_left rest ht)
      refine List.forall_mem_cons.2 ⟨hparts.standsAs (hrun List.mem_cons_self) (by simp [kind]),
        fun t ht => hparts.standsAs (hrun (List.mem_cons_of_mem _ ht)) ?_⟩
      rcases hlongest.glued.kinds t ht with hk | hk | ⟨-, hk⟩ <;> simp [hk]
    obtain ⟨front, back, hsplit, hstart⟩ := exists_piece hstands hlongest.glued.touching
    have hvalues : (String.join ((first :: run).map Token.value)).toList =
        (first :: run).flatMap (·.value.toList) := by
      rw [String.toList_join, List.flatMap_map]
    refine .inr ⟨kind, run, hlongest, rfl, front, back, by rw [hvalues]; exact hsplit, hstart, ?_⟩
    rw [hvalues]
    intro c hc
    obtain ⟨t, ht, hc⟩ := List.mem_flatMap.1 hc
    exact (hstands t ht).solid c hc

theorem IsDeclaration.exists_heads {d : String × String} (h : IsDeclaration ts d rest) :
    ∃ named first following, Heads named d.1 ts first following ∧
      IsIdentifier named (first :: following) d.2 rest := by
  cases h with
  | named word equals identifier =>
    obtain ⟨first, following, rfl, -, -⟩ := isWord_of_isIdentifier identifier
    exact ⟨true, first, following, .named word equals, identifier⟩
  | unnamed bare identifier => exact ⟨false, _, _, .unnamed bare, identifier⟩

theorem Heads.suffix {key : String} (h : Heads named key ts first following) :
    first :: following <:+ ts := by
  cases h with
  | named => exact List.suffix_append [_, _] _
  | unnamed => exact List.suffix_refl _

end Identifier

/-- Is the declaration a part of the outline, and has it tokens of its own among `all`, behind its
mark and in front of the query in which it holds? -/
def Outline.Locates (o : Outline) (all : List Token) (mark : Token) (d : String × String) : Prop :=
  ∃ before behind mid inner after, all = before ++ mark :: behind ∧
    mark.isComparator ">" = true ∧ IsDeclaration behind d mid ∧ Outlines .query mid inner after ∧
    Outline.IsPart (.declared mark d inner) o

section Locates
variable {all ts rest : List Token} {phrase : OutlinePhrase} {o o' : Outline} {mark : Token}
  {d : String × String}

theorem Outline.Locates.imp (h : o.Locates all mark d)
    (hpart : ∀ part, Outline.IsPart part o → Outline.IsPart part o') : o'.Locates all mark d := by
  obtain ⟨before, behind, mid, inner, after, hall, hmark, hd, hinner, hdeclared⟩ := h
  exact ⟨before, behind, mid, inner, after, hall, hmark, hd, hinner, hpart _ hdeclared⟩

/-- What the log has is located. The outline of a chain may begin in front of its tokens. -/
theorem Outlines.locates (h : Outlines phrase ts o rest) (hts : ts <:+ all)
    (hleft : ∀ left, phrase = .chain left →
      ∀ mark d, (mark, d) ∈ left.log → left.Locates all mark d)
    (hmem : (mark, d) ∈ o.log) : o.Locates all mark d := by
  induction h generalizing mark d with
  | query clause _ ihf ihc =>
    refine ihc (clause.suffix.trans hts) (fun left hl mark d hmem => ?_) hmem
    cases hl
    exact ihf hts nofun hmem
  | stop => exact hleft _ rfl mark d hmem
  | @operator t ts mid after rest left right o op ms _ modifiers operand _ iho ihc =>
    have hmid : mid <:+ all := modifiers.suffix.trans ((List.suffix_cons t ts).trans hts)
    refine ihc (operand.suffix.trans hmid) (fun both hb mark d hmem => ?_) hmem
    cases hb
    rcases List.mem_append.1 hmem with hmem | hmem
    · exact (hleft left rfl mark d hmem).imp fun _ => .left
    · exact (iho hmid nofun hmem).imp fun _ => .right
  | group _ _ _ ih => exact ih ((List.suffix_cons _ _).trans hts) nofun hmem
  | term => cases hmem
  | @indexed t relation ts _ _ _ _ _ _ modifiers _ ih =>
    have hmid := modifiers.suffix.trans ((List.suffix_append [t, relation] ts).trans hts)
    exact (ih hmid nofun hmem).imp fun _ => .indexed
  | @declaration t ts mid rest own o isMark declaration query ih =>
    have hmid := declaration.suffix.trans ((List.suffix_cons t ts).trans hts)
    rcases List.mem_cons.1 hmem with hhere | hmem
    · cases hhere
      obtain ⟨before, hall⟩ := hts
      exact ⟨before, ts, mid, o, rest, hall.symm, isMark, declaration, query, .self⟩
    · exact (ih hmid nofun hmem).imp fun _ => .declared

end Locates

/-- What a text that is read registers is what its declarations say, in the order of the text. An
identifier without quotes is the longest run of tokens without a gap, and one piece of the text. -/
theorem declarations_of_read {choice : ServerChoice} {text : String} {q : Query}
    (h : read choice text = .ok q) : ∃ ts p o,
    tokenize text = .ok (ts ++ [.endOfText p]) ∧ (∀ o', Outlines .query ts o' [] ↔ o' = o) ∧
    q.registry = Registry.seeded.registerAll o.declarations ∧
    ∀ mark key id, (mark, key, id) ∈ o.log → o.Declares text.toList ts mark key id := by
  obtain ⟨ts, p, o, ht, ho, hregistry, -⟩ := exists_outline_of_read h
  have hparts := (scan_complete_iff.1 (tokenize_inv ht)).1
  refine ⟨ts, p, o, ht, ho.eq_iff, hregistry, fun mark key id hmem => ?_⟩
  obtain ⟨before, behind, rest, inner, after, hsplit, hmark, hd, hinner, hpart⟩ :=
    ho.locates (List.suffix_refl ts) nofun hmem
  obtain ⟨named, first, following, hheads, hid⟩ := hd.exists_heads
  have htokens : first :: following ⊆ ts := fun t ht => by
    rw [hsplit]
    exact List.mem_append_right _ (List.mem_cons_of_mem _ (hheads.suffix.subset ht))
  exact ⟨before, behind, named, first, following, rest, inner, after, hsplit, hmark, hheads,
    isWritten_of_isIdentifier hparts htokens hid, hinner, hpart⟩

def gluedText : String := ">x=u:/A=b c"

def gluedTokens : List Token :=
  [⟨.comparator, ">", ⟨1, 1, 0⟩, 1⟩, ⟨.bareword, "x", ⟨1, 2, 1⟩, 2⟩,
    ⟨.comparator, "=", ⟨1, 3, 2⟩, 3⟩, ⟨.bareword, "u:", ⟨1, 4, 3⟩, 5⟩, ⟨.slash, "/", ⟨1, 6, 5⟩, 6⟩,
    ⟨.bareword, "A", ⟨1, 7, 6⟩, 7⟩, ⟨.comparator, "=", ⟨1, 8, 7⟩, 8⟩,
    ⟨.bareword, "b", ⟨1, 9, 8⟩, 9⟩, ⟨.bareword, "c", ⟨1, 11, 10⟩, 11⟩]

def gluedOutline : Outline :=
  .declared ⟨.comparator, ">", ⟨1, 1, 0⟩, 1⟩ ("x", "u:/a=b")
    (.term ⟨.bareword, "c", ⟨1, 11, 10⟩, 11⟩)

def gluedQuery : Query :=
  ⟨some gluedText, .clause (.resolve (Registry.seeded.registerAll [("x", "u:/a=b")])
    ServerChoice.standard.field ServerChoice.standard.relation [] "c"),
    Registry.seeded.registerAll [("x", "u:/a=b")], .standard⟩

theorem tokenize_gluedText :
    tokenize gluedText = .ok (gluedTokens ++ [.endOfText ⟨1, 12, 11⟩]) := by
  decide +kernel

theorem isDeclaration_gluedText :
    IsDeclaration (gluedTokens.drop 1) ("x", "u:/a=b") (gluedTokens.drop 8) := by
  have hrun : IsRun true ⟨.bareword, "u:", ⟨1, 4, 3⟩, 5⟩ (gluedTokens.drop 4)
      ((gluedTokens.drop 4).take 4) (gluedTokens.drop 8) :=
    .step rfl rfl (.step rfl rfl (.step rfl rfl (.step rfl rfl (.stop (by decide)))))
  have hid : "u:/a=b" = String.join
      ((⟨.bareword, "u:", ⟨1, 4, 3⟩, 5⟩ :: (gluedTokens.drop 4).take 4).map Token.lower) := by
    decide +kernel
  rw [hid]
  exact .named rfl rfl (.bare rfl hrun)

theorem read_gluedText : read .standard gluedText = .ok gluedQuery := by
  have hmeans : Means .standard gluedText ⟨gluedQuery.root, 2, [("x", "u:/a=b")]⟩ :=
    ⟨by decide, ⟨_, _, tokenize_gluedText, .query (.declaration rfl isDeclaration_gluedText
      (.query (.term rfl nofun) (.stop nofun))) (.stop nofun)⟩, by decide, by decide⟩
  exact read_of_means hmeans

theorem declarations_of_read_gluedText : read .standard gluedText = .ok gluedQuery ∧
    gluedQuery.registry.resolve "x" = some "u:/a=b" ∧
    (⟨.comparator, ">", ⟨1, 1, 0⟩, 1⟩, "x", "u:/a=b") ∈ gluedOutline.log ∧
    gluedOutline.Declares gluedText.toList gluedTokens ⟨.comparator, ">", ⟨1, 1, 0⟩, 1⟩ "x"
      "u:/a=b" := by
  obtain ⟨ts, p, o, ht, hone, -, hall⟩ := declarations_of_read read_gluedText
  obtain ⟨rfl, -⟩ := List.append_inj' (Except.ok.inj (tokenize_gluedText.symm.trans ht)) rfl
  obtain rfl : gluedOutline = o := (hone _).1 (.query (.declaration rfl isDeclaration_gluedText
    (.query (.term rfl nofun) (.stop nofun))) (.stop nofun))
  have hmem : (⟨.comparator, ">", ⟨1, 1, 0⟩, 1⟩, "x", "u:/a=b") ∈ gluedOutline.log :=
    List.mem_cons_self
  exact ⟨read_gluedText, by decide +kernel, hmem, hall _ _ _ hmem⟩

end ContextQuery.Cql
