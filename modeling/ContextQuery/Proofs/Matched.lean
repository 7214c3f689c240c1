import Mathlib.Data.List.Forall2

namespace ContextQuery

inductive Matched {ε α β : Type} (e : ε → ε → Prop) (p : α → β → Prop) :
    Except ε α → Except ε β → Prop
  | error {fault fault' : ε} (h : e fault fault') : Matched e p (.error fault) (.error fault')
  | ok {a : α} {b : β} (h : p a b) : Matched e p (.ok a) (.ok b)

namespace Matched
variable {ε α β γ δ : Type} {e : ε → ε → Prop} {p : α → β → Prop} {q : γ → δ → Prop}

theorem bind {x : Except ε α} {y : Except ε β} {f : α → Except ε γ} {g : β → Except ε δ}
    (h : Matched e p x y) (hfg : ∀ a b, p a b → Matched e q (f a) (g b)) :
    Matched e q (x.bind f) (y.bind g) := by
  cases h with
  | error h => exact .error h
  | ok h => exact hfg _ _ h

/-- Where the values so far are the same, both runs go on from the same value. -/
theorem bind_eq {x y : Except ε α} {f : α → Except ε γ} {g : α → Except ε δ}
    (h : Matched e Eq x y) (hfg : ∀ a, Matched e q (f a) (g a)) :
    Matched e q (x.bind f) (y.bind g) := by
  refine h.bind ?_
  rintro a _ rfl
  exact hfg a

theorem self (x : Except ε α) : Matched Eq Eq x x := by
  cases x with
  | error fault => exact .error rfl
  | ok a => exact .ok rfl

theorem imp_of_ok {p' : α → β → Prop} {x : Except ε α} {y : Except ε β} (h : Matched e p x y)
    (hp : ∀ a b, x = .ok a → y = .ok b → p a b → p' a b) : Matched e p' x y := by
  cases h with
  | error h => exact .error h
  | ok h => exact .ok (hp _ _ rfl rfl h)

theorem mapM {as : List α} {bs : List β} {f : α → Except ε γ} {g : β → Except ε γ}
    (h : List.Forall₂ (fun a b => Matched e Eq (f a) (g b)) as bs) :
    Matched e Eq (as.mapM f) (bs.mapM g) := by
  induction h with
  | nil => exact .ok rfl
  | cons h _ ih =>
    rw [List.mapM_cons, List.mapM_cons]
    exact h.bind_eq fun c => ih.bind_eq fun cs => .ok rfl

/-- With the same values, what the one run gives is what the other gives. -/
theorem eq_ok_iff {x y : Except ε α} (h : Matched e Eq x y) (a : α) : x = .ok a ↔ y = .ok a := by
  cases h with
  | error => exact iff_of_false nofun nofun
  | ok h => rw [h]

end Matched

end ContextQuery
