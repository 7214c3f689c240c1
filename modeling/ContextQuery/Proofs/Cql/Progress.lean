import ContextQuery.Proofs.Cql.Session

namespace ContextQuery.Cql

def begun (log : List Moment) : Nat := log.countP (·.event matches .entered)

def ended (log : List Moment) : Nat := log.countP (·.event matches .left)

section Moments
variable (n : Nat) (log : List Moment)

theorem begun_entered : begun (⟨.entered, n⟩ :: log) = begun log + 1 := List.countP_cons_of_pos rfl

theorem begun_left : begun (⟨.left, n⟩ :: log) = begun log := List.countP_cons_of_neg nofun

theorem ended_entered : ended (⟨.entered, n⟩ :: log) = ended log := List.countP_cons_of_neg nofun

theorem ended_left : ended (⟨.left, n⟩ :: log) = ended log + 1 := List.countP_cons_of_pos rfl

end Moments

/-- Does `s'` come behind `s` with the same count and behind at least one token, each of which took
one call for the next? -/
structure Session.Progresses (s s' : Session) : Prop where
  nesting : s'.nesting = s.nesting
  taken : ∃ taken more, taken ≠ [] ∧ s.ahead.tokens = taken ++ s'.ahead.tokens ∧
    s'.log = s.log ++ more ∧ (answers more).length = taken.length

/-- The count at a moment is that of the clauses under way. -/
theorem Counts.nesting_eq {top n n' : Nat} {log : List Moment} (h : Counts top n log n')
    (hn : n ≤ top) {front behind : List Moment} {m : Moment} (hlog : log = front ++ m :: behind) :
    m.nesting + ended (front ++ [m]) = n + begun (front ++ [m]) ∧ m.nesting ≤ top := by
  induction h generalizing front with
  | nil => cases front <;> cases hlog
  | asked _ ih =>
    cases front with
    | nil => cases hlog; exact ⟨rfl, hn⟩
    | cons _ front =>
      obtain ⟨rfl, hmore⟩ := List.cons.inj hlog
      obtain ⟨heq, hle⟩ := ih hn hmore
      exact ⟨heq, hle⟩
  | entered room _ ih =>
    cases front with
    | nil => cases hlog; exact ⟨rfl, room⟩
    | cons _ front =>
      obtain ⟨rfl, hmore⟩ := List.cons.inj hlog
      obtain ⟨heq, hle⟩ := ih room hmore
      simp only [List.cons_append, ended_entered, begun_entered]
      omega
  | left _ ih =>
    cases front with
    | nil => cases hlog; exact ⟨rfl, Nat.le_of_succ_le hn⟩
    | cons _ front =>
      obtain ⟨rfl, hmore⟩ := List.cons.inj hlog
      obtain ⟨heq, hle⟩ := ih (Nat.le_of_succ_le hn) hmore
      simp only [List.cons_append, ended_left, begun_left]
      omega

theorem Derives.length_lt {scope : Scope} {r : Registry} {ts rest : List Token} {m : Meaning}
    (h : Derives .clause scope r ts m rest) : rest.length < ts.length := by
  cases h with
  | group _ query _ => exact Nat.lt_succ_of_lt query.suffix.length_le
  | term => exact Nat.lt_succ_self _
  | indexed _ _ modifiers clause =>
    exact Nat.lt_succ_of_le (Nat.le_succ_of_le (clause.suffix.trans modifiers.suffix).length_le)
  | declaration _ declaration query =>
    exact Nat.lt_succ_of_le (query.suffix.trans declaration.suffix).length_le

theorem length_owes (e : Ending) (ts : List Token) : (e.owes ts).length = ts.length := by
  cases ts <;> simp [Ending.owes, Scan.answers]

namespace Session

theorem progresses_of_tracks {α γ : Type} {top : Nat} {s : Session} {x : Reading α}
    {y : Except Fault γ} {out : γ → α × Registry × List Token}
    (h : Tracks top s.ahead.ending s.nesting s.registry s.ahead.tokens x y out)
    (hrest : ∀ c, y = .ok c → (out c).2.2 <:+ s.ahead.tokens ∧
      (out c).2.2.length < s.ahead.tokens.length) :
    ∃ result s', x s = some (result, s') ∧ ∀ a, result = .ok a → s.Progresses s' := by
  obtain ⟨s', more, hlog, -, houtcome⟩ := h s ⟨rfl, rfl, rfl⟩
  refine ⟨y.map fun c => (out c).1, s', houtcome.run_eq, fun a ha => ?_⟩
  cases y with
  | error => cases ha
  | ok c =>
    obtain ⟨⟨taken, htaken⟩, hlt⟩ := hrest c rfl
    generalize x s = run at houtcome
    cases houtcome with
    | ok hstands howes =>
      have hahead : s'.ahead.tokens = (out c).2.2 := by rw [hstands.ahead]
      refine ⟨hstands.nesting, taken, more, ?_, ?_, hlog, ?_⟩
      · rintro rfl
        rw [← htaken] at hlt
        exact absurd hlt (Nat.lt_irrefl _)
      · rw [hahead, htaken]
      · have hlength := congrArg List.length howes
        rw [List.length_append, length_owes, length_owes, ← htaken, List.length_append] at hlength
        omega

variable (scope : Scope) (s : Session)

/-- Where the count is at the limit already there is no room, and the clause is refused. -/
theorem clause_progresses : ∃ result s', scope.clause s = some (result, s') ∧
    ∀ p, result = .ok p → s.Progresses s' := by
  have htracks : Tracks (max s.nesting maxNesting + 1) _ _ _ _ _ _ _ :=
    tracks_clause (e := s.ahead.ending) (maxNesting - s.nesting) (by omega) (Nat.lt_succ_self _)
      scope s.registry s.ahead.tokens
  refine progresses_of_tracks htracks fun q hq => ?_
  obtain ⟨m, rest, hm, rfl, -⟩ := understands_clause hq
  exact ⟨hm.suffix, hm.length_lt⟩

theorem query_progresses : ∃ result s', scope.query s = some (result, s') ∧
    ∀ p, result = .ok p → s.Progresses s' := by
  have hread : ∀ r ts, Tracks (max s.nesting maxNesting + 1) _ _ r ts _ _ _ :=
    tracks_clause (e := s.ahead.ending) (maxNesting - s.nesting) (by omega) (Nat.lt_succ_self _)
      scope
  refine progresses_of_tracks (tracks_query hread s.registry s.ahead.tokens) fun q hq => ?_
  obtain ⟨m, rest, hm, rfl, -⟩ := understands_query (fun _ _ _ => understands_clause) hq
  refine ⟨hm.suffix, ?_⟩
  cases hm with
  | query hclause hchain => exact Nat.lt_of_le_of_lt hchain.suffix.length_le hclause.length_lt

end Session

/-- Each call for a clause or a query comes to an end, and where it gives a result, behind a token
and with the count as it was. A whole reading asks for the tokens of its text one by one, for none
of them twice and for nothing behind the end or a literal that is never closed, whether it succeeds
or not; and all the while the count is the number of clauses under way, of which there are never
more than one above the limit. -/
theorem reading_progresses (choice : ServerChoice) (text : String) (scope : Scope) (s : Session) :
    (∃ result s', scope.clause s = some (result, s') ∧ ∀ p, result = .ok p → s.Progresses s') ∧
    (∃ result s', scope.query s = some (result, s') ∧ ∀ p, result = .ok p → s.Progresses s') ∧
    ∃ log, Session.read choice text = some (read choice text, log) ∧
      answers log <+: (Scan.ofText text).answers ∧
      (answers log).length ≤ (Scan.ofText text).tokens.length + 1 ∧
      ∀ front m behind, log = front ++ m :: behind →
        m.nesting + ended (front ++ [m]) = begun (front ++ [m]) ∧ m.nesting ≤ maxNesting + 1 := by
  obtain ⟨log, n, hread, hcounts, hanswers⟩ := Session.read_tracks choice text
  refine ⟨Session.clause_progresses scope s, Session.query_progresses scope s, log, hread, hanswers,
    ?_, ?_⟩
  · have hlength := hanswers.length_le
    rwa [Scan.answers, List.length_append, List.length_map] at hlength
  · intro front m behind hlog
    obtain ⟨heq, hle⟩ := hcounts.nesting_eq (Nat.zero_le _) hlog
    exact ⟨by rw [heq, Nat.zero_add], hle⟩

def openText : String := "(a"

/-- A session at the term in an open group, as deep as a clause can be. -/
def deepSession : Session :=
  ⟨⟨[], ⟨1, 3, 2⟩⟩, ⟨.bareword, "a", ⟨1, 2, 1⟩, 2⟩, .seeded, 127, []⟩

theorem reading_progresses_openText :
    (∃ p s', (Scope.ofChoice .standard).clause deepSession = some (.ok p, s') ∧
      deepSession.Progresses s') ∧
    ∃ log, Session.read .standard openText =
        some (.error ⟨.missingParenthesis, some ⟨1, 3, 2⟩⟩, log) ∧
      answers log <+: (Scan.ofText openText).answers ∧ (answers log).length ≤ 3 := by
  have hclause : (Scope.ofChoice .standard).clause deepSession = some
      (.ok (.clause (.resolve .seeded "cql.serverChoice" "scr" [] "a"), 1),
        ⟨⟨[], ⟨1, 3, 2⟩⟩, .endOfText ⟨1, 3, 2⟩, .seeded, 127, [⟨.entered, 128⟩,
          ⟨.asked (.ok (.endOfText ⟨1, 3, 2⟩)), 128⟩, ⟨.left, 127⟩]⟩) := by
    rw [Session.clause_eq, if_neg (by decide), Scope.body]
    rfl
  have hfails : (read .standard openText).bind (fun _ => .ok ()) =
      .error ⟨.missingParenthesis, some ⟨1, 3, 2⟩⟩ := by decide +kernel
  have hread : read .standard openText = .error ⟨.missingParenthesis, some ⟨1, 3, 2⟩⟩ := by
    rcases bind_eq_error_iff.1 hfails with h | ⟨-, -, hok⟩
    · exact h
    · cases hok
  have htokens : (Scan.ofText openText).tokens.length = 2 := by decide +kernel
  obtain ⟨⟨result, s', hrun, hprogresses⟩, -, log, hlog, hanswers, hlength, -⟩ :=
    reading_progresses .standard openText (.ofChoice .standard) deepSession
  rw [hclause] at hrun
  obtain ⟨rfl, -⟩ := Prod.mk.inj (Option.some.inj hrun)
  rw [hread] at hlog
  rw [htokens] at hlength
  exact ⟨⟨_, s', hclause.trans hrun, hprogresses _ rfl⟩, log, hlog, hanswers, hlength⟩

end ContextQuery.Cql
