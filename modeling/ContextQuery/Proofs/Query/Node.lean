import ContextQuery.Query.Tree

namespace ContextQuery

theorem BooleanOp.keyword_injective {op op' : BooleanOp} (h : op.keyword = op'.keyword) :
    op = op' := by
  revert h
  cases op <;> cases op' <;> decide

namespace Node

/-- Does every clause of the tree satisfy `p`, and the modifiers of every operator `q`? -/
def Each (p : Clause → Prop) (q : List Modifier → Prop) : Node → Prop
  | .clause c => p c
  | .boolean _ ms left right => q ms ∧ Each p q left ∧ Each p q right

def Each.decide {p : Clause → Prop} {q : List Modifier → Prop} [DecidablePred p] [DecidablePred q] :
    (n : Node) → Decidable (n.Each p q)
  | .clause c => inferInstanceAs (Decidable (p c))
  | .boolean _ ms left right =>
    have := Each.decide (p := p) (q := q) left
    have := Each.decide (p := p) (q := q) right
    inferInstanceAs (Decidable (q ms ∧ left.Each p q ∧ right.Each p q))

instance {p : Clause → Prop} {q : List Modifier → Prop} [DecidablePred p] [DecidablePred q]
    (n : Node) : Decidable (n.Each p q) := Each.decide n

/-- A clause has height one and an operator more. -/
theorem isBoolean_toNat_lt_height (n : Node) : n.isBoolean.toNat < n.height := by
  induction n with
  | clause c => exact Nat.zero_lt_one
  | boolean op ms left right ihl ihr =>
    change 1 < 1 + max left.height right.height
    omega

theorem Each.mono {p p' : Clause → Prop} {q q' : List Modifier → Prop} {n : Node} (h : n.Each p q)
    (hp : ∀ c, p c → p' c) (hq : ∀ ms, q ms → q' ms) : n.Each p' q' := by
  induction n with
  | clause c => exact hp c h
  | boolean op ms left right ihl ihr => exact ⟨hq ms h.1, ihl h.2.1, ihr h.2.2⟩

/-- Do two trees have the same shape and the same operators, with `p` for any two clauses and `q`
for the modifiers of any two operators in the same place? -/
inductive Alike (p : Clause → Clause → Prop) (q : List Modifier → List Modifier → Prop) :
    Node → Node → Prop
  | clause {c d : Clause} (h : p c d) : Alike p q (.clause c) (.clause d)
  | boolean {op : BooleanOp} {ms ns : List Modifier} {left left' right right' : Node} (h : q ms ns)
    (hl : Alike p q left left') (hr : Alike p q right right') :
    Alike p q (.boolean op ms left right) (.boolean op ns left' right')

theorem Alike.isBoolean_eq {p : Clause → Clause → Prop} {q : List Modifier → List Modifier → Prop}
    {n n' : Node} (h : n.Alike p q n') : n.isBoolean = n'.isBoolean := by
  cases h <;> rfl

end Node

end ContextQuery
