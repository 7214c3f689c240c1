import ContextQuery.Proofs.Cql.Tracking

namespace ContextQuery.Cql.Session

section Phrases
variable {top n : Nat} {e : Ending} {r : Registry} {ts : List Token}

theorem tracks_expect (cause : Cause) {p : Token → Bool}
    (hp : ∀ t, t.kind = .endOfText → p t = false) :
    Tracks top e n r ts (expect cause p) (Cql.expect e cause p ts) fun c => (c.1, r, c.2) := by
  cases ts with
  | nil =>
    refine tracks_view_end fun t ht => ?_
    rw [hp t ht]
    exact tracks_refuse cause
  | cons t rest =>
    refine tracks_view ?_
    dsimp only [Cql.expect]
    split
    · rw [bind_pure_comp]
      exact tracks_advance.map _ fun _ => rfl
    · exact tracks_refuse cause

theorem isWord_end {t : Token} (h : t.kind = .endOfText) : t.isWord = false := by
  rw [Token.isWord, h]
  rfl

theorem tracks_modifier {slash : Token} :
    Tracks top e n r (slash :: ts) modifier (Cql.modifier e ts) fun c => (c.1, r, c.2) := by
  refine tracks_advance.bind fun _ _ => (tracks_expect _ fun t ht => ?_).bind fun c _ => ?_
  · rw [isWord_end ht]
    rfl
  obtain ⟨name, rest⟩ := c
  cases rest with
  | nil =>
    refine tracks_view_end fun t ht => ?_
    rw [if_neg (by rw [ht]; decide)]
    exact tracks_pure rfl
  | cons t rest =>
    refine tracks_view ?_
    dsimp only [namedModifier]
    split
    · refine tracks_advance.bind fun _ _ => ?_
      refine (tracks_expect _ fun _ => isWord_end).bind fun c _ => ?_
      exact tracks_pure rfl
    · exact tracks_pure rfl

theorem modifiers_cons {slash : Token} (hk : slash.kind = .slash) :
    Cql.modifiers e (slash :: ts) = Cql.modifier e ts >>= fun c =>
      (Cql.modifiers e c.2).map fun d => (c.1 :: d.1, d.2) := by
  rw [Cql.modifiers, if_pos hk]
  split
  · next hm => rw [hm]; rfl
  · next hm => simp only [hm]; rfl

/-- The induction is on the tokens that are left, of which every modifier takes some. -/
theorem tracks_moreModifiers (read : List Modifier) :
    Tracks top e n r ts (current >>= fun t => t.moreModifiers read) (Cql.modifiers e ts)
      fun c => (read ++ c.1, r, c.2) := by
  induction hlen : ts.length using Nat.strongRecOn generalizing ts read with
  | _ len ih =>
    cases ts with
    | nil =>
      refine tracks_view_end fun t ht => ?_
      rw [Token.moreModifiers, if_neg (by rw [ht]; decide), Cql.modifiers]
      exact tracks_pure (by rw [List.append_nil])
    | cons slash ts =>
      refine tracks_view ?_
      rw [Token.moreModifiers]
      by_cases hk : slash.kind = .slash
      · rw [if_pos hk, modifiers_cons hk]
        refine tracks_modifier.bind fun c hm => ?_
        have hlt : c.2.length < len := hlen ▸ Nat.lt_succ_of_lt (modifier_length hm)
        exact (ih _ hlt (read ++ [c.1]) rfl).map _ fun _ => by rw [List.append_assoc]; rfl
      · rw [if_neg hk, Cql.modifiers, if_neg hk]
        exact tracks_pure (by rw [List.append_nil])

theorem tracks_modifiers :
    Tracks top e n r ts modifiers (Cql.modifiers e ts) fun c => (c.1, r, c.2) :=
  tracks_moreModifiers []

theorem tracks_glue (last : Token) (comparators : Bool) (read : String) :
    Tracks top e n r ts (last.glue comparators read) (e.view (adjacent comparators last ts).2)
      fun _ => (read ++ String.join ((adjacent comparators last ts).1.map Token.lower), r,
        (adjacent comparators last ts).2) := by
  induction ts generalizing last read with
  | nil =>
    refine .of_view fun hv => ?_
    rw [Token.glue, adjacent, hv]
    refine tracks_view_end fun t ht => ?_
    rw [if_neg (by rw [Token.continues, ht]; simp)]
    exact tracks_pure (by simp)
  | cons t rest ih =>
    rw [Token.glue]
    refine tracks_view ?_
    rw [adjacent]
    split
    · -- Where the next token fails to come, nothing is left that could be glued.
      have hview : e.view (adjacent comparators t rest).2 =
          e.view rest >>= fun _ => e.view (adjacent comparators t rest).2 := by
        cases rest with
        | nil => change e.view [] = e.view [] >>= fun _ => e.view []; cases e.view [] <;> rfl
        | cons => rfl
      dsimp only
      rw [hview]
      refine tracks_advance.bind fun _ _ => ?_
      have hrest := ih t (read ++ t.lower)
      simpa only [List.map_cons, String.join_cons, String.append_assoc] using hrest
    · exact tracks_pure (by simp)

theorem tracks_identifier (comparators : Bool) (first : Token) :
    Tracks top e n r ts (identifier comparators first) (Cql.identifier e comparators first ts)
      fun d => (d.1, r, d.2) := by
  rw [identifier, Cql.identifier]
  split
  · exact tracks_pure rfl
  · dsimp only
    rw [bind_pure_comp]
    refine (tracks_glue first comparators first.lower).map _ fun _ => ?_
    rw [List.map_cons, String.join_cons]

theorem identifier_nil (hv : e.view [] = .ok ()) (comparators : Bool) (first : Token) :
    Cql.identifier e comparators first [] = .ok (first.lower, []) := by
  rw [Cql.identifier]
  split
  · rfl
  · dsimp only [Cql.adjacent]
    rw [hv]
    simp

/-- An identifier, read and registered. -/
theorem tracks_registration (key : String) (comparators : Bool) (first : Token) :
    Tracks top e n r ts
      (do
        let id ← identifier comparators first
        register key id)
      (do
        let (id, left) ← Cql.identifier e comparators first ts
        return ((key, id), left))
      fun d => ((), r.register d.1.1 d.1.2, d.2) :=
  (tracks_identifier comparators first).bind fun c _ =>
    (tracks_register key c.1).map (fun _ => ((key, c.1), c.2)) fun _ => rfl

theorem tracks_declaration :
    Tracks top e n r ts declaration (Cql.declaration e ts)
      fun d => ((), r.register d.1.1 d.1.2, d.2) := by
  refine (tracks_expect _ fun _ => isWord_end).bind fun c _ => ?_
  obtain ⟨first, rest⟩ := c
  cases rest with
  | nil =>
    refine tracks_view_end fun t ht => ?_
    rw [if_neg (by rw [Token.isComparator, ht]; simp)]
    refine .of_view fun hv => ?_
    have h : Tracks top e n r [] _ _ _ := tracks_registration unnamedPrefix false first
    rwa [identifier_nil hv] at h
  | cons sign more =>
    refine tracks_view ?_
    dsimp only
    split
    · refine tracks_advance.bind fun _ _ => ?_
      refine (tracks_expect _ fun _ => isWord_end).bind fun c _ => ?_
      exact tracks_registration first.lower true c.1
    · exact tracks_registration unnamedPrefix false first

theorem tracks_term (scope : Scope) (t : Token) :
    Tracks top e n r ts (scope.term t) (.ok (Cql.clause.term scope r t ts)) Parsed.apart :=
  tracks_registered (tracks_pure rfl)

end Phrases

section Clauses
variable {top n : Nat} {e : Ending} {scope : Scope}
  {read : Registry → List Token → Except Fault Parsed}

/-- The induction is on the height that is left, as in the reader. -/
theorem tracks_chain
    (hread : ∀ r ts, Tracks top e n r ts scope.clause (read r ts) Parsed.apart) (left : Parsed) :
    Tracks top e n left.registry left.rest (scope.chain (left.node, left.height))
      (Cql.chain e read left) Parsed.apart := by
  fun_induction Cql.chain e read left with
  | case1 left hrest =>
    rw [Scope.chain, hrest]
    refine tracks_view_end fun t ht => ?_
    rw [if_neg (by simp [Token.isKeyword, Token.operator?, ht])]
    exact tracks_pure (by rw [Parsed.apart, hrest])
  | case2 left t rest hrest hkeyword ih =>
    rw [Scope.chain, hrest]
    refine tracks_view ?_
    rw [if_pos hkeyword]
    refine tracks_advance.bind fun _ _ => ?_
    refine (tracks_ofExcept _).bind fun op _ => ?_
    refine tracks_modifiers.bind fun c _ => ?_
    refine (hread _ _).bind fun right _ => ?_
    dsimp only
    split
    · next hhigh =>
      rw [dif_pos (show maxHeight < 1 + max left.height right.height from hhigh)]
      exact tracks_throw _
    · next hfits =>
      rw [dif_neg (show ¬ maxHeight < 1 + max left.height right.height from hfits)]
      exact ih op c.1 right hfits
  | case3 left t rest hrest hkeyword =>
    rw [Scope.chain, hrest]
    refine tracks_view ?_
    rw [if_neg hkeyword]
    exact tracks_pure (by rw [Parsed.apart, hrest])

theorem tracks_query
    (hread : ∀ r ts, Tracks top e n r ts scope.clause (read r ts) Parsed.apart) (r : Registry)
    (ts : List Token) :
    Tracks top e n r ts scope.query (Cql.query e read r ts) Parsed.apart := by
  rw [Scope.query]
  exact (hread r ts).bind fun first _ => tracks_chain hread first

def entered (s : Session) : Session :=
  { s with nesting := s.nesting + 1, log := s.log ++ [⟨.entered, s.nesting + 1⟩] }

def exited (s : Session) : Session :=
  { s with nesting := s.nesting - 1, log := s.log ++ [⟨.left, s.nesting - 1⟩] }

theorem clause_eq (scope : Scope) (s : Session) : scope.clause s =
    (if maxNesting < s.nesting + 1 then refuse .nestedTooDeeply
    else do
      let read ← scope.body
      count (· - 1)
      mark .left
      return read : Reading (Node × Nat)) s.entered := by
  rw [Scope.clause]
  rfl

/-- The count goes up in front of what a clause consists of, and down again behind it. -/
theorem tracks_counted {γ : Type} {r : Registry} {ts : List Token} {y : Except Fault γ}
    {out : γ → (Node × Nat) × Registry × List Token} (htop : n < top) (hroom : n < maxNesting)
    (h : Tracks top e (n + 1) r ts scope.body y out) :
    Tracks top e n r ts scope.clause y out := by
  intro s hs
  obtain ⟨s', more, hlog, hcounts, houtcome⟩ := h s.entered
    ⟨hs.ahead, congrArg (· + 1) hs.nesting, hs.registry⟩
  rw [clause_eq, if_neg (by rw [hs.nesting]; omega)]
  have hnote : (⟨.entered, s.nesting + 1⟩ : Moment) = ⟨.entered, n + 1⟩ := by rw [hs.nesting]
  have hlog' : s'.log = s.log ++ ⟨.entered, n + 1⟩ :: more := by
    rw [hlog, entered, hnote, List.append_assoc]
    rfl
  generalize hrun : scope.body s.entered = run at houtcome
  cases houtcome with
  | error howes =>
    -- A clause that fails is not left, and the count stays up.
    refine ⟨s', ⟨.entered, n + 1⟩ :: more, hlog', .entered htop hcounts, ?_⟩
    rw [bind_of_error hrun]
    exact .error howes
  | @ok c hstands howes =>
    have hstands' : s'.exited.Stands e n (out c).2.1 (out c).2.2 :=
      ⟨hstands.ahead, congrArg (· - 1) hstands.nesting, hstands.registry⟩
    rw [hstands.nesting] at hcounts
    refine ⟨s'.exited, ⟨.entered, n + 1⟩ :: (more ++ [⟨.left, n⟩]), ?_, ?_, ?_⟩
    · rw [exited, hlog', hstands.nesting, List.append_assoc]
      rfl
    · rw [hstands'.nesting]
      exact .entered htop (hcounts.append (.left .nil))
    · have hanswers : answers (⟨.entered, n + 1⟩ :: (more ++ [⟨.left, n⟩])) = answers more := by
        simp [answers, Event.answer?]
      rw [bind_of_ok hrun, hanswers]
      exact .ok hstands' howes

/-- What a clause consists of, where there is that much room for the clauses in it. -/
theorem tracks_body {room : Nat}
    (hread : ∀ scope r ts, Tracks top e n r ts scope.clause (Cql.clause e room scope r ts)
      Parsed.apart) (scope : Scope) (r : Registry) (ts : List Token) :
    Tracks top e n r ts scope.body (Cql.clause e (room + 1) scope r ts) Parsed.apart := by
  rw [Scope.body]
  cases ts with
  | nil =>
    refine tracks_view_end fun t ht => ?_
    rw [if_neg (by rw [ht]; decide), if_neg (by rw [isWord_end ht]; decide),
      if_neg (by rw [Token.isComparator, ht]; simp), if_pos ht]
    exact tracks_refuse _
  | cons t rest =>
    refine tracks_view ?_
    unfold Cql.clause
    split
    · refine tracks_advance.bind fun _ _ => ?_
      refine (tracks_query (hread scope) _ _).bind fun inner _ => ?_
      refine (tracks_expect _ fun t ht => ?_).bind fun c _ => ?_
      · rw [ht]
        rfl
      · exact tracks_pure rfl
    · split
      · refine tracks_advance.bind fun _ _ => ?_
        cases rest with
        | nil =>
          refine tracks_view_end fun u hu => ?_
          rw [if_neg (by simp [Token.isRelation, isWord_end hu, hu])]
          exact tracks_term scope t
        | cons relation more =>
          refine tracks_view ?_
          dsimp only
          split
          · refine tracks_advance.bind fun _ _ => tracks_modifiers.bind fun c _ => ?_
            exact hread _ _ _
          · exact tracks_term scope t
      · split
        · refine tracks_advance.bind fun _ _ => ?_
          refine tracks_declaration.bind fun d _ => ?_
          exact tracks_query (hread scope) _ _
        · refine .of_kind_ne fun hk => ?_
          rw [if_neg hk]
          exact tracks_refuse _

/-- A clause, with room for as many clauses within each other as the count leaves. -/
theorem tracks_clause (room : Nat) (hn : n + room = max n maxNesting)
    (htop : max n maxNesting < top) (scope : Scope) (r : Registry) (ts : List Token) :
    Tracks top e n r ts scope.clause (Cql.clause e room scope r ts) Parsed.apart := by
  induction room generalizing n scope r ts with
  | zero =>
    intro s hs
    refine ⟨s.entered, [⟨.entered, s.nesting + 1⟩], rfl, ?_, ?_⟩
    · change Counts top n [⟨.entered, s.nesting + 1⟩] (s.nesting + 1)
      rw [hs.nesting]
      exact .entered (by omega) .nil
    · rw [clause_eq, if_pos (by rw [hs.nesting]; omega), Cql.clause, hs.faultAt_eq]
      exact .error List.nil_prefix
  | succ room ih =>
    refine tracks_counted (by omega) (by omega) (tracks_body (fun scope r ts => ?_) scope r ts)
    exact ih (by omega) (by omega) scope r ts

theorem tracks_whole (choice : ServerChoice) (text : String) (top : Nat) (htop : maxNesting < top)
    (r : Registry) (ts : List Token) :
    Tracks top e 0 r ts (whole choice text)
      (Cql.query e (Cql.clause e maxNesting (.ofChoice choice)) r ts >>= finish e choice text)
      fun q => (q, q.registry, []) := by
  have hread : ∀ r ts, Tracks top e 0 r ts _ _ _ :=
    tracks_clause maxNesting (by simp) (by simpa) (.ofChoice choice)
  refine (tracks_query hread r ts).bind fun p _ => ?_
  obtain ⟨node, height, registry, rest⟩ := p
  cases rest with
  | nil =>
    refine tracks_view_end fun t ht => ?_
    rw [if_pos ht]
    exact tracks_registered (tracks_pure rfl)
  | cons t rest =>
    refine tracks_view (.of_kind_ne fun hk => ?_)
    rw [if_neg hk]
    exact tracks_refuse _

end Clauses

/-- The whole reading of a text: what it comes to, how the count goes, and which answers it gets. -/
theorem read_tracks (choice : ServerChoice) (text : String) :
    ∃ log n, Session.read choice text = some (Cql.read choice text, log) ∧
      Counts (maxNesting + 1) 0 log n ∧ answers log <+: (Scan.ofText text).answers := by
  rw [Session.read]
  by_cases hblank : Text.isBlankText text = true
  · rw [if_pos hblank, Cql.read, if_pos hblank]
    exact ⟨[], 0, rfl, .nil, List.nil_prefix⟩
  rw [if_neg hblank, read_eq (Bool.eq_false_iff.2 hblank)]
  have hscan : Scan.ofText text = _ := scan_after_nil (.ofText text)
  cases hn : (Cursor.ofText text).next with
  | mk answer u =>
    rw [hn] at hscan
    cases answer with
    | error fault =>
      rw [hscan]
      exact ⟨_, 0, rfl, .asked .nil, List.prefix_refl _⟩
    | ok first =>
      generalize hs : (⟨u, first, .seeded, 0, [⟨.asked (.ok first), 0⟩]⟩ : Session) = s
      have hstands : s.Stands (Scan.ofText text).ending 0 .seeded (Scan.ofText text).tokens := by
        subst hs
        exact ⟨hscan.symm, rfl, rfl⟩
      obtain ⟨s', more, hlog, hcounts, houtcome⟩ :=
        tracks_whole choice text (maxNesting + 1) (Nat.lt_succ_self _) _ _ s hstands
      have hfirst : (Cursor.ofText text).next = (.ok s.inView, s.cursor) := by rw [hn, ← hs]
      have hstart : s.log = [⟨.asked (.ok s.inView), 0⟩] := by rw [← hs]
      have hid (y : Except Fault Query) : y.map (fun q => q) = y := by cases y <;> rfl
      refine ⟨s'.log, s'.nesting, ?_, ?_, ?_⟩
      · rw [hstands.view_eq]
        dsimp only
        rw [hs, houtcome.run_eq, Option.map_some, hid]
        rfl
      · rw [hlog, hstart]
        exact .asked hcounts
      · have hanswers : answers s'.log = .ok s.inView :: answers more := by
          rw [hlog, hstart]
          rfl
        rw [hanswers, hstands.answers_eq hfirst]
        exact (List.prefix_append_right_inj [_]).2 houtcome.given_prefix

end ContextQuery.Cql.Session
