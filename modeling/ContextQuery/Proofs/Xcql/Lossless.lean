import ContextQuery.Proofs.Query.Node
import ContextQuery.Proofs.Xml.Unambiguous
import ContextQuery.Xcql.Writer

namespace ContextQuery.Xcql
open Xml

theorem modifier_injective : Function.Injective modifier := by
  intro m n h
  cases m
  cases n
  simpa [modifier] using h

theorem modifiers_injective : Function.Injective modifiers := by
  intro ms ns h
  cases ms with
  | nil =>
    cases ns with
    | nil => rfl
    | cons n ns => simp [modifiers] at h
  | cons m ms =>
    cases ns with
    | nil => simp [modifiers] at h
    | cons n ns =>
      have hmap : (m :: ms).map modifier = (n :: ns).map modifier := by simpa [modifiers] using h
      exact modifier_injective.list_map hmap

/-- A context set and the name behind it are read off, also where there is no context set. -/
theorem prefixes_append_unambiguous {i j : Option String} {s t : String} {es fs : List Element}
    (h : prefixes i ++ .text "index" s :: es = prefixes j ++ .text "index" t :: fs) :
    i = j ∧ s = t ∧ es = fs := by
  cases i <;> cases j <;> simp_all [prefixes]

theorem identifier_append_unambiguous {i j : Option String} {s t : String} {es fs : List Element}
    (h : identifier i ++ .text "value" s :: es = identifier j ++ .text "value" t :: fs) :
    i = j ∧ s = t ∧ es = fs := by
  cases i <;> cases j <;> simp_all [identifier]

theorem clause_injective : Function.Injective clause := by
  rintro ⟨⟨field, i⟩, ⟨relation, k⟩, ms, term⟩ ⟨⟨field', i'⟩, ⟨relation', k'⟩, ms', term'⟩ h
  have hchildren := (Element.group.inj h).2
  obtain ⟨rfl, rfl, hrest⟩ := prefixes_append_unambiguous hchildren
  simp only [List.cons.injEq, Element.group.injEq, Element.text.injEq, true_and, and_true] at hrest
  obtain ⟨hrelation, rfl⟩ := hrest
  obtain ⟨rfl, rfl, hms⟩ := identifier_append_unambiguous hrelation
  obtain rfl := modifiers_injective hms
  rfl

theorem node_injective : Function.Injective node := by
  intro n n' h
  induction n generalizing n' with
  | clause c =>
    cases n' with
    | clause d => exact congrArg Node.clause (clause_injective h)
    | boolean op' ms' left' right' => simp [node, clause] at h
  | boolean op ms left right ihl ihr =>
    cases n' with
    | clause d => simp [node, clause] at h
    | boolean op' ms' left' right' =>
      simp only [node, Element.group.injEq, List.cons.injEq, Element.text.injEq, true_and,
        and_true] at h
      obtain ⟨⟨hop, hms⟩, hleft, hright⟩ := h
      obtain rfl := BooleanOp.keyword_injective hop
      obtain rfl := modifiers_injective hms
      obtain rfl := ihl hleft
      obtain rfl := ihr hright
      rfl

theorem proper_modifier (m : Modifier) : (modifier m).Proper := by
  refine .group (by decide) (List.cons_ne_nil _ _) ?_
  simp only [List.forall_mem_cons, List.not_mem_nil, IsEmpty.forall_iff, implies_true,
    and_true]
  exact ⟨.text (by decide), .text (by decide), .text (by decide)⟩

theorem proper_of_mem_modifiers {ms : List Modifier} {e : Element} (h : e ∈ modifiers ms) :
    e.Proper := by
  unfold modifiers at h
  split at h
  · cases h
  · next hne =>
    rw [List.mem_singleton.1 h]
    refine .group (by decide) (by simpa using hne) fun e he => ?_
    obtain ⟨m, -, rfl⟩ := List.mem_map.1 he
    exact proper_modifier m

theorem proper_of_mem_prefixes {i : Option String} {e : Element} (h : e ∈ prefixes i) :
    e.Proper := by
  cases i with
  | none => cases h
  | some identifier =>
    rw [List.mem_singleton.1 h]
    refine .group (by decide) (List.cons_ne_nil _ _) (List.forall_mem_singleton.2 ?_)
    refine .group (by decide) (List.cons_ne_nil _ _) (List.forall_mem_singleton.2 ?_)
    exact .text (by decide)

theorem proper_of_mem_identifier {i : Option String} {e : Element} (h : e ∈ identifier i) :
    e.Proper := by
  cases i with
  | none => cases h
  | some identifier =>
    rw [List.mem_singleton.1 h]
    exact .text (by decide)

theorem proper_clause (c : Clause) : (clause c).Proper := by
  refine .group (by decide) (by simp) ?_
  simp only [List.forall_mem_append, List.forall_mem_cons, List.not_mem_nil, IsEmpty.forall_iff,
    implies_true, and_true]
  refine ⟨fun e => proper_of_mem_prefixes, .text (by decide), ?_, .text (by decide)⟩
  refine .group (by decide) (by simp) ?_
  simp only [List.forall_mem_append, List.forall_mem_cons]
  exact ⟨fun e => proper_of_mem_identifier, .text (by decide), fun e => proper_of_mem_modifiers⟩

theorem proper_node (n : Node) : (node n).Proper := by
  induction n with
  | clause c => exact proper_clause c
  | boolean op ms left right ihl ihr =>
    refine .group (by decide) (List.cons_ne_nil _ _) ?_
    simp only [List.forall_mem_cons, List.not_mem_nil, IsEmpty.forall_iff, implies_true,
    and_true]
    refine ⟨.group (by decide) (List.cons_ne_nil _ _) ?_,
      .group (by decide) (List.cons_ne_nil _ _) (List.forall_mem_singleton.2 ihl),
      .group (by decide) (List.cons_ne_nil _ _) (List.forall_mem_singleton.2 ihr)⟩
    exact List.forall_mem_cons.2 ⟨.text (by decide), fun e => proper_of_mem_modifiers⟩

/-- Queries are written alike as XML if and only if they have the same tree, whatever is written for
indentation, unless it has a `<` itself. -/
theorem write_eq_iff_root_eq {indent : String} (h : '<' ∉ indent.toList) (q q' : Query) :
    write indent q = write indent q' ↔ q.root = q'.root := by
  constructor
  · intro heq
    exact node_injective (render_injective h (proper_node q.root) (proper_node q'.root) heq)
  · intro hroot
    rw [write, write, hroot]

def taglikeQuery (identifier : Option String) (ms : List Modifier) : Query :=
  ⟨none, .clause ⟨⟨"</index>\n", identifier⟩, ⟨"&lt;", none⟩, ms, "\n<modifiers>"⟩, .empty,
    .standard⟩

theorem write_eq_iff_root_eq_taglikeQuery : '<' ∉ "\n>".toList ∧
    write "\n>" (taglikeQuery none []) ≠ write "\n>" (taglikeQuery (some "") []) ∧
    write "\n>" (taglikeQuery none [.flag "a", .flag ""]) ≠
      write "\n>" (taglikeQuery none [.flag "", .flag "a"]) := by
  have hindent : '<' ∉ "\n>".toList := by decide
  exact ⟨hindent, fun h => absurd ((write_eq_iff_root_eq hindent _ _).1 h) (by decide),
    fun h => absurd ((write_eq_iff_root_eq hindent _ _).1 h) (by decide)⟩

end ContextQuery.Xcql
