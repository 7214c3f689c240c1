import ContextQuery.Cql.Session
import ContextQuery.Proofs.Cql.Grammar

namespace ContextQuery.Cql

def Ending.answer : Ending → Except Fault Token
  | .complete p => .ok (.endOfText p)
  | .broken fault => .error fault

def Scan.answers (s : Scan) : List (Except Fault Token) := s.tokens.map .ok ++ [s.ending.answer]

/-- The answers still to come where these tokens are ahead, the first of them in view. -/
def Ending.owes (e : Ending) : List Token → List (Except Fault Token)
  | [] => []
  | _ :: rest => Scan.answers ⟨rest, e⟩

def Event.answer? : Event → Option (Except Fault Token)
  | .asked answer => some answer
  | _ => none

def answers (log : List Moment) : List (Except Fault Token) := log.filterMap (·.event.answer?)

/-- The count goes from `n` to `n'`: one up where a clause is entered, one down where it is left,
and never above `top`. -/
inductive Counts (top : Nat) : Nat → List Moment → Nat → Prop
  | nil {n : Nat} : Counts top n [] n
  | asked {n n' : Nat} {answer : Except Fault Token} {more : List Moment}
    (rest : Counts top n more n') : Counts top n (⟨.asked answer, n⟩ :: more) n'
  | entered {n n' : Nat} {more : List Moment} (room : n < top) (rest : Counts top (n + 1) more n') :
    Counts top n (⟨.entered, n + 1⟩ :: more) n'
  | left {n n' : Nat} {more : List Moment} (rest : Counts top n more n') :
    Counts top (n + 1) (⟨.left, n⟩ :: more) n'

theorem Counts.append {top n m k : Nat} {front behind : List Moment} (h : Counts top n front m)
    (h' : Counts top m behind k) : Counts top n (front ++ behind) k := by
  induction h with
  | nil => exact h'
  | asked _ ih => exact .asked (ih h')
  | entered room _ ih => exact .entered room (ih h')
  | left _ ih => exact .left (ih h')

def Parsed.apart (p : Parsed) : (Node × Nat) × Registry × List Token :=
  ((p.node, p.height), p.registry, p.rest)

theorem eq_endOfText_of_next {s u : Cursor} {t : Token} (h : s.next = (.ok t, u))
    (hk : t.kind = .endOfText) : t = .endOfText t.start := by
  rcases cuts_of_next h with ⟨gap, taken, hcuts⟩ | ⟨-, hspace⟩
  · exact absurd hk (kind_of_takes hcuts.takes)
  · obtain ⟨ht, -⟩ := Prod.mk.inj (h.symm.trans (Cursor.next_of_space hspace))
    cases ht
    rfl

namespace Session

/-- The tokens from the one in view on, and how they end. -/
def ahead (s : Session) : Scan :=
  if s.inView.kind = .endOfText then ⟨[], .complete s.inView.start⟩
  else ⟨s.inView :: (Scan.after [] s.cursor).tokens, (Scan.after [] s.cursor).ending⟩

/-- A scan sees the first token, and the rest is what the session sees that has it in view. -/
theorem scan_after_nil (c : Cursor) : Scan.after [] c = match c.next with
    | (.ok t, u) => ahead ⟨u, t, .seeded, 0, []⟩
    | (.error fault, _) => ⟨[], .broken fault⟩ := by
  rw [Scan.after]
  split
  · next t u hn =>
    simp only [hn, ahead, dite_eq_ite]
    split
    · rfl
    · obtain ⟨ts, v, hreads, hts, hend⟩ := exists_reads_scan_after [] u
      rw [hreads.scan_after, hend.scan_after, hts]
      simp
  · next hn => rw [hn]; rfl

structure Stands (e : Ending) (n : Nat) (r : Registry) (ts : List Token) (s : Session) : Prop where
  ahead : s.ahead = ⟨ts, e⟩
  nesting : s.nesting = n
  registry : s.registry = r

namespace Stands
variable {e : Ending} {n : Nat} {r : Registry} {ts : List Token} {t : Token} {s : Session}

theorem nil_inv (h : s.Stands e n r []) :
    s.inView.kind = .endOfText ∧ e = .complete s.inView.start := by
  have := h.ahead
  unfold Session.ahead at this
  split at this
  · next hk => cases this; exact ⟨hk, rfl⟩
  · cases this

theorem cons_inv (h : s.Stands e n r (t :: ts)) :
    s.inView = t ∧ t.kind ≠ .endOfText ∧ Scan.after [] s.cursor = ⟨ts, e⟩ := by
  have := h.ahead
  unfold Session.ahead at this
  split at this
  · cases this
  · next hk => cases this; exact ⟨rfl, hk, rfl⟩

/-- The token that has just come into view is the first of the answers. -/
theorem answers_eq {c : Cursor} (h : s.Stands e n r ts) (hn : c.next = (.ok s.inView, s.cursor)) :
    Scan.answers ⟨ts, e⟩ = .ok s.inView :: e.owes ts := by
  cases ts with
  | nil =>
    obtain ⟨hkind, rfl⟩ := h.nil_inv
    exact congrArg (fun t => [Except.ok t]) (eq_endOfText_of_next hn hkind).symm
  | cons t ts =>
    rw [h.cons_inv.1]
    rfl

theorem faultAt_eq (h : s.Stands e n r ts) (cause : Cause) :
    e.faultAt ts cause = ⟨cause, some s.inView.start⟩ := by
  cases ts with
  | nil => rw [h.nil_inv.2]; rfl
  | cons t ts => rw [h.cons_inv.1]; rfl

theorem view_eq (h : s.Stands e n r ts) : e.view ts = .ok () := by
  cases ts with
  | nil => rw [h.nil_inv.2]; rfl
  | cons => rfl

end Stands

/-- Has a step come to what `y` says? Where it gives a result, the count is as before, and it has
used up the answers that are no longer owed. -/
inductive Outcome {α γ : Type} (e : Ending) (n : Nat) (ts : List Token)
    (out : γ → α × Registry × List Token) (s' : Session) (given : List (Except Fault Token)) :
    Except Fault γ → Option (Except Fault α × Session) → Prop
  | ok {c : γ} (stands : s'.Stands e n (out c).2.1 (out c).2.2)
    (owes : e.owes ts = given ++ e.owes (out c).2.2) :
    Outcome e n ts out s' given (.ok c) (some (.ok (out c).1, s'))
  | error {fault : Fault} (owes : given <+: e.owes ts) :
    Outcome e n ts out s' given (.error fault) (some (.error fault, s'))

namespace Outcome
variable {α γ : Type} {e : Ending} {n : Nat} {ts : List Token}
  {out : γ → α × Registry × List Token} {s' : Session} {given : List (Except Fault Token)}
  {y : Except Fault γ} {run : Option (Except Fault α × Session)}

theorem run_eq (h : Outcome e n ts out s' given y run) :
    run = some (y.map fun c => (out c).1, s') := by
  cases h <;> rfl

theorem given_prefix (h : Outcome e n ts out s' given y run) : given <+: e.owes ts := by
  cases h with
  | ok _ howes => rw [howes]; exact List.prefix_append _ _
  | error howes => exact howes

end Outcome

def Tracks {α γ : Type} (top : Nat) (e : Ending) (n : Nat) (r : Registry) (ts : List Token)
    (x : Reading α) (y : Except Fault γ) (out : γ → α × Registry × List Token) : Prop :=
  ∀ s : Session, s.Stands e n r ts → ∃ s' more, s'.log = s.log ++ more ∧
    Counts top n more s'.nesting ∧ Outcome e n ts out s' (answers more) y (x s)

section Bind
variable {α β : Type} {x : Reading α} {f : α → Reading β} {s s' : Session}

theorem bind_of_ok {a : α} (h : x s = some (.ok a, s')) : (x >>= f) s = f a s' := by
  simp only [bind, ExceptT.bind, ExceptT.mk, StateT.bind, h, Option.bind_some, ExceptT.bindCont]

theorem bind_of_error {fault : Fault} (h : x s = some (.error fault, s')) :
    (x >>= f) s = some (.error fault, s') := by
  simp only [bind, ExceptT.bind, ExceptT.mk, StateT.bind, h, Option.bind_some, ExceptT.bindCont]
  rfl

end Bind

section Steps
variable {α β γ δ : Type} {top n : Nat} {e : Ending} {r : Registry} {ts : List Token} {t : Token}
  {x : Reading α} {f : α → Reading β} {y : Except Fault γ}
  {g : γ → Except Fault δ} {out : γ → α × Registry × List Token}
  {out' : δ → β × Registry × List Token}

theorem Tracks.bind (hx : Tracks top e n r ts x y out)
    (hf : ∀ c, y = .ok c → Tracks top e n (out c).2.1 (out c).2.2 (f (out c).1) (g c) out') :
    Tracks top e n r ts (x >>= f) (y >>= g) out' := by
  intro s hs
  obtain ⟨s₁, first, hlog₁, hcounts₁, h₁⟩ := hx s hs
  generalize hrun : x s = run at h₁
  cases h₁ with
  | error howes =>
    exact ⟨s₁, first, hlog₁, hcounts₁, by rw [bind_of_error hrun]; exact .error howes⟩
  | @ok c hstands howes =>
    obtain ⟨s₂, second, hlog₂, hcounts₂, h₂⟩ := hf c rfl s₁ hstands
    have hlog : s₂.log = s.log ++ (first ++ second) := by rw [hlog₂, hlog₁, List.append_assoc]
    have hanswers : answers (first ++ second) = answers first ++ answers second :=
      List.filterMap_append
    rw [hstands.nesting] at hcounts₁
    refine ⟨s₂, first ++ second, hlog, hcounts₁.append hcounts₂, ?_⟩
    rw [bind_of_ok hrun, hanswers]
    change Outcome e n ts out' s₂ _ (g c) _
    generalize g c = z, f (out c).1 s₁ = run at h₂
    cases h₂ with
    | error howes₂ => exact .error (howes ▸ (List.prefix_append_right_inj _).2 howes₂)
    | ok hstands₂ howes₂ => exact .ok hstands₂ (by rw [howes, howes₂, List.append_assoc])

/-- The same step, with what it comes to put another way. -/
theorem Tracks.map (hx : Tracks top e n r ts x y out) (k : γ → δ)
    {out' : δ → α × Registry × List Token} (hk : ∀ c, out' (k c) = out c) :
    Tracks top e n r ts x (y.map k) out' := by
  intro s hs
  obtain ⟨s', more, hlog, hcounts, h⟩ := hx s hs
  refine ⟨s', more, hlog, hcounts, ?_⟩
  generalize x s = run at h
  cases h with
  | error howes => exact .error howes
  | @ok c hstands howes =>
    rw [← hk c] at hstands howes ⊢
    exact .ok hstands howes

/-- Looking at the token in view changes nothing. -/
theorem tracks_view {view : Token → Reading α} (h : Tracks top e n r (t :: ts) (view t) y out) :
    Tracks top e n r (t :: ts) (current >>= view) y out := by
  intro s hs
  rw [show (current >>= view) s = view s.inView s from rfl, hs.cons_inv.1]
  exact h s hs

theorem tracks_view_end {view : Token → Reading α}
    (h : ∀ t, t.kind = .endOfText → Tracks top e n r [] (view t) y out) :
    Tracks top e n r [] (current >>= view) y out :=
  fun s hs => h s.inView hs.nil_inv.1 s hs

/-- Where a step is run, the next token is in view. -/
theorem Tracks.of_view (h : e.view ts = .ok () → Tracks top e n r ts x y out) :
    Tracks top e n r ts x y out :=
  fun s hs => h hs.view_eq s hs

theorem Tracks.of_kind_ne (h : t.kind ≠ .endOfText → Tracks top e n r (t :: ts) x y out) :
    Tracks top e n r (t :: ts) x y out :=
  fun s hs => h hs.cons_inv.2.1 s hs

theorem tracks_registered {view : Registry → Reading α} (h : Tracks top e n r ts (view r) y out) :
    Tracks top e n r ts (registered >>= view) y out := by
  intro s hs
  rw [show (registered >>= view) s = view s.registry s from rfl, hs.registry]
  exact h s hs

theorem tracks_pure {c : γ} {a : α} (hc : out c = (a, r, ts)) :
    Tracks top e n r ts (pure a) (.ok c) out := by
  intro s hs
  refine ⟨s, [], (List.append_nil _).symm, hs.nesting ▸ .nil, ?_⟩
  have hrun : (pure a : Reading α) s = some (.ok (out c).1, s) := by rw [hc]; rfl
  rw [hrun]
  refine .ok ?_ ?_ <;> rw [hc]
  · exact hs
  · rfl

theorem tracks_throw (fault : Fault) :
    Tracks top e n r ts (throw fault : Reading α) (.error fault) out :=
  fun s hs => ⟨s, [], (List.append_nil _).symm, hs.nesting ▸ .nil, .error List.nil_prefix⟩

theorem tracks_refuse (cause : Cause) :
    Tracks top e n r ts (refuse cause : Reading α) (.error (e.faultAt ts cause)) out := by
  intro s hs
  refine ⟨s, [], (List.append_nil _).symm, hs.nesting ▸ .nil, ?_⟩
  rw [hs.faultAt_eq]
  exact .error List.nil_prefix

def called (s : Session) : Session :=
  { s with cursor := s.cursor.next.2, log := s.log ++ [⟨.asked s.cursor.next.1, s.nesting⟩] }

theorem advance_eq (s : Session) : advance s = match s.cursor.next.1 with
    | .ok next => some (.ok s.inView, { s.called with inView := next })
    | .error fault => some (.error fault, s.called) := by
  change (do
    let next ← MonadExcept.ofExcept s.cursor.next.1
    modify ({ · with inView := next })
    return s.inView : Reading Token) s.called = _
  cases s.cursor.next.1 <;> rfl

/-- Moving on brings the next token into view. -/
theorem tracks_advance :
    Tracks top e n r (t :: ts) advance (e.view ts) fun _ => (t, r, ts) := by
  intro s hs
  obtain ⟨rfl, -, hscan⟩ := hs.cons_inv
  rw [scan_after_nil] at hscan
  have hcounts (answer : Except Fault Token) :
      Counts top n [⟨.asked answer, s.nesting⟩] s.nesting := hs.nesting ▸ .asked .nil
  rw [advance_eq]
  cases hn : s.cursor.next with
  | mk answer u =>
    rw [hn] at hscan
    cases answer with
    | error fault =>
      cases hscan
      refine ⟨s.called, _, rfl, hcounts _, ?_⟩
      rw [hn]
      exact .error (List.prefix_refl _)
    | ok next =>
      have hahead : ahead { s.called with inView := next } = ⟨ts, e⟩ := by
        rw [← hscan, called, hn]
        rfl
      have hstands : ({ s.called with inView := next } : Session).Stands e n r ts :=
        ⟨hahead, hs.nesting, hs.registry⟩
      refine ⟨{ s.called with inView := next }, _, rfl, hcounts _, ?_⟩
      rw [hstands.view_eq, hn]
      exact .ok hstands (hstands.answers_eq (c := s.cursor) (by rw [hn, called, hn]))

theorem tracks_ofExcept (y : Except Fault α) :
    Tracks top e n r ts (MonadExcept.ofExcept y) y fun a => (a, r, ts) := by
  cases y with
  | ok a => exact tracks_pure rfl
  | error fault => exact tracks_throw fault

theorem tracks_register (key id : String) :
    Tracks top e n r ts (register key id) (.ok ()) fun _ => ((), r.register key id, ts) := by
  intro s hs
  refine ⟨{ s with registry := s.registry.register key id }, [], (List.append_nil _).symm,
    hs.nesting ▸ .nil, .ok ⟨hs.ahead, hs.nesting, ?_⟩ rfl⟩
  exact congrArg (·.register key id) hs.registry

end Steps

end Session

end ContextQuery.Cql
