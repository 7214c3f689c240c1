import ContextQuery.Proofs.Xcql.Lossless

namespace ContextQuery.Xml
open Element

/-- An element that has been opened, and the depth of the line with its opening tag. -/
structure Opened where
  name : String
  depth : Nat

/-- Can the text stand between two tags? It has no marks of a tag, and each `&` begins one of the
references that stand for a character. -/
structure IsCharacterData (content : String) : Prop where
  noTag : '<' ∉ content.toList ∧ '>' ∉ content.toList
  reference : ∀ front behind, content.toList = front ++ '&' :: behind →
    ∃ name ∈ ["amp;", "lt;", "gt;"], name.toList <+: behind

/-- Where the first elements are open, innermost first, does the line lead to the second ones? -/
inductive Line.Passes : List Opened → Line → List Opened → Prop
  | opening {opened : List Opened} {name : String} (isName : IsName name) :
    Passes opened ⟨opened.length, openTag name⟩ (⟨name, opened.length⟩ :: opened)
  | closing {o : Opened} {opened : List Opened} :
    Passes (o :: opened) ⟨o.depth, closeTag o.name⟩ opened
  | whole {opened : List Opened} {name content : String} (isName : IsName name)
    (inside : IsCharacterData content) :
    Passes opened ⟨opened.length, openTag name ++ content ++ closeTag name⟩ opened

inductive Nests : List Opened → List Line → List Opened → Prop
  | nil (opened : List Opened) : Nests opened [] opened
  | cons {opened between after : List Opened} {l : Line} {ls : List Line}
    (line : l.Passes opened between) (more : Nests between ls after) : Nests opened (l :: ls) after

section Escape

theorem close_mark_not_mem_escape (s : String) : '>' ∉ (escape s).toList := by
  rw [escape, String.toList_ofList, List.mem_flatMap]
  rintro ⟨c, -, hc⟩
  unfold escapeChar at hc
  split_ifs at hc with hamp hlt hgt
  · exact absurd hc (by decide)
  · exact absurd hc (by decide)
  · exact absurd hc (by decide)
  · exact hgt (List.mem_singleton.1 hc).symm

/-- An `&` stands only at the front of what is written for a character. -/
theorem reference_of_escapeChar {c : Char} {front behind : List Char}
    (h : escapeChar c = front ++ '&' :: behind) :
    ∃ name ∈ ["amp;", "lt;", "gt;"], name.toList = behind := by
  have htail : '&' ∉ (escapeChar c).tail := by
    unfold escapeChar
    split_ifs <;> simp
  cases front with
  | cons d front => simp [h] at htail
  | nil =>
    unfold escapeChar at h
    split_ifs at h <;> simp_all

theorem reference_of_flatMap {cs front behind : List Char}
    (h : cs.flatMap escapeChar = front ++ '&' :: behind) :
    ∃ name ∈ ["amp;", "lt;", "gt;"], name.toList <+: behind := by
  induction cs generalizing front with
  | nil => simp at h
  | cons c cs ih =>
    rw [List.flatMap_cons] at h
    rcases List.append_eq_append_iff.1 h with ⟨later, -, hlater⟩ | ⟨more, hc, hmore⟩
    · exact ih hlater
    · -- The `&` is one of those that are written for `c`, or the first one behind them.
      cases more with
      | nil =>
        have hmore : cs.flatMap escapeChar = [] ++ '&' :: behind := hmore.symm
        exact ih hmore
      | cons d more =>
        obtain ⟨rfl, rfl⟩ := List.cons.inj hmore
        obtain ⟨name, hname, rfl⟩ := reference_of_escapeChar hc
        exact ⟨name, hname, List.prefix_append _ _⟩

theorem isCharacterData_escape (s : String) : IsCharacterData (escape s) where
  noTag := ⟨not_mem_escape s, close_mark_not_mem_escape s⟩
  reference _ _ h := reference_of_flatMap (by rwa [escape, String.toList_ofList] at h)

end Escape

section Nests
variable {opened between after after' : List Opened} {l : Line} {ls ms : List Line}

theorem Nests.append (h : Nests opened ls between) (h' : Nests between ms after) :
    Nests opened (ls ++ ms) after := by
  induction h with
  | nil => exact h'
  | cons line _ ih => exact .cons line (ih h')

theorem Nests.exists_take (h : Nests opened ls after) (n : Nat) :
    ∃ between, Nests opened (ls.take n) between := by
  induction h generalizing n with
  | nil opened => exact ⟨opened, by rw [List.take_nil]; exact .nil opened⟩
  | cons line _ ih =>
    cases n with
    | zero => exact ⟨_, .nil _⟩
    | succ n =>
      obtain ⟨between, hmore⟩ := ih n
      exact ⟨between, .cons line hmore⟩

theorem toList_openTag_append (name s : String) :
    (openTag name ++ s).toList = '<' :: (name.toList ++ '>' :: s.toList) := by
  simp [openTag]

/-- Tags that open elements are told from each other and from what stands behind them. -/
theorem openTag_unambiguous {name name' s t : String} (h : IsName name) (h' : IsName name')
    (he : openTag name ++ s = openTag name' ++ t) : name = name' ∧ s = t := by
  have hlist := congrArg String.toList he
  rw [toList_openTag_append, toList_openTag_append] at hlist
  obtain ⟨hname, hrest⟩ := before_mark_unambiguous h.1 h'.1 (List.cons.inj hlist).2
  exact ⟨String.toList_inj.1 hname, String.toList_inj.1 hrest⟩

/-- A tag that opens an element is no closing tag, whatever stands behind it. -/
theorem openTag_append_ne_closeTag {name : String} (h : IsName name) (s name' : String) :
    openTag name ++ s ≠ closeTag name' := by
  intro he
  have hlist := congrArg String.toList he
  have hclose : (closeTag name').toList = '<' :: '/' :: (name'.toList ++ ['>']) := by
    simp [closeTag]
  rw [toList_openTag_append, hclose] at hlist
  exact h.append_ne_slash _ _ (List.cons.inj hlist).2

/-- A line begins with an opening tag, and leaves the element open if nothing stands behind the tag,
or it closes the innermost element. -/
theorem Line.Passes.cases_text (h : l.Passes opened after) :
    (∃ name s, IsName name ∧ l.text = openTag name ++ s ∧
      after = if s = "" then ⟨name, opened.length⟩ :: opened else opened) ∨
    ∃ o, opened = o :: after ∧ l.text = closeTag o.name := by
  cases h with
  | opening isName => exact .inl ⟨_, "", isName, String.append_empty.symm, rfl⟩
  | closing => exact .inr ⟨_, rfl, rfl⟩
  | @whole _ name content isName =>
    have hne : content ++ closeTag name ≠ "" := fun he => by
      have hlist := congrArg String.toList he
      simp [closeTag] at hlist
    exact .inl ⟨name, _, isName, String.append_assoc, (if_neg hne).symm⟩

/-- What a line does shows in its text. -/
theorem Line.Passes.unique (h : l.Passes opened after) (h' : l.Passes opened after') :
    after = after' := by
  rcases h.cases_text with ⟨name, s, hname, htext, rfl⟩ | ⟨o, ho, htext⟩ <;>
    rcases h'.cases_text with ⟨name', s', hname', htext', rfl⟩ | ⟨o', ho', htext'⟩ <;>
    have hsame := htext.symm.trans htext'
  · obtain ⟨rfl, rfl⟩ := openTag_unambiguous hname hname' hsame
    rfl
  · exact absurd hsame (openTag_append_ne_closeTag hname _ _)
  · exact absurd hsame.symm (openTag_append_ne_closeTag hname' _ _)
  · exact (List.cons.inj (ho.symm.trans ho')).2

theorem Nests.unique (h : Nests opened ls after) (h' : Nests opened ls after') : after = after' := by
  induction h with
  | nil =>
    cases h'
    rfl
  | cons line _ ih =>
    cases h' with
    | cons line' more' =>
      obtain rfl := line.unique line'
      exact ih more'

end Nests

theorem nests_linesOfAll {es : List Element}
    (h : ∀ e ∈ es, ∀ opened, Nests opened (e.lines opened.length) opened) (opened : List Opened) :
    Nests opened (linesOfAll opened.length es) opened := by
  induction es with
  | nil => exact .nil opened
  | cons e es ih =>
    obtain ⟨he, hes⟩ := List.forall_mem_cons.1 h
    rw [linesOfAll]
    exact (he opened).append (ih hes)

/-- An element leaves open what was open in front of it. -/
theorem Element.Proper.nests {e : Element} (h : e.Proper) (opened : List Opened) :
    Nests opened (e.lines opened.length) opened := by
  induction h generalizing opened with
  | text isName =>
    rw [Element.lines]
    exact .cons (.whole isName (isCharacterData_escape _)) (.nil opened)
  | @group name children isName _ _ ih =>
    have hchildren := nests_linesOfAll ih (⟨name, opened.length⟩ :: opened)
    rw [Element.lines, List.cons_append]
    exact .cons (.opening isName) (hchildren.append (.cons .closing (.nil opened)))

end ContextQuery.Xml

namespace ContextQuery.Xcql
open Xml

/-- A tree is written as one list of lines, whatever they are indented by. The lines nest, their
depth is the number of elements open around them, none is open in the end, and at each place there
is one way only to tell which are open. -/
theorem write_nested (root : Node) : ∃ ls : List Line,
    (∀ indent raw registry choice, write indent ⟨raw, root, registry, choice⟩ =
      String.join (ls.map fun l =>
        String.join (List.replicate l.depth indent) ++ l.text ++ "\n")) ∧
    Nests [] ls [] ∧ ∀ n, ∃! opened, Nests [] (ls.take n) opened := by
  have hnests : Nests [] ((node root).lines 0) [] := (proper_node root).nests []
  refine ⟨(node root).lines 0, fun _ _ _ _ => rfl, hnests, fun n => ?_⟩
  obtain ⟨opened, htake⟩ := hnests.exists_take n
  exact ⟨opened, htake, fun _ h => h.unique htake⟩

end ContextQuery.Xcql
