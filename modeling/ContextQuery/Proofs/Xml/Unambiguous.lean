import ContextQuery.Proofs.Lists
import ContextQuery.Xml.Element

namespace ContextQuery.Xml
open Element

/-- Can a tag have the name? The name ends with the tag and does not make it a closing one. -/
def IsName (name : String) : Prop := '>' ∉ name.toList ∧ name.toList.head? ≠ some '/'

instance (name : String) : Decidable (IsName name) :=
  inferInstanceAs (Decidable ('>' ∉ name.toList ∧ name.toList.head? ≠ some '/'))

/-- Have all elements names that tags can have, and do all groups have children? -/
inductive Element.Proper : Element → Prop
  | text {name content : String} (isName : IsName name) : Proper (.text name content)
  | group {name : String} {children : List Element} (isName : IsName name)
    (nonempty : children ≠ []) (each : ∀ e ∈ children, Proper e) : Proper (.group name children)

theorem escapeChar_unambiguous {c d : Char} {x y : List Char}
    (h : escapeChar c ++ x = escapeChar d ++ y) : c = d ∧ x = y := by
  unfold escapeChar at h
  split_ifs at h <;> grind

theorem escape_injective : Function.Injective escape := by
  intro s t h
  have hlist : s.toList.flatMap escapeChar = t.toList.flatMap escapeChar :=
    String.ofList_injective h
  rw [← String.toList_inj]
  generalize s.toList = cs at hlist ⊢
  generalize t.toList = ds at hlist ⊢
  have hne (c : Char) (x : List Char) : escapeChar c ++ x ≠ [] := by
    unfold escapeChar
    split_ifs <;> simp
  induction cs generalizing ds with
  | nil =>
    cases ds with
    | nil => rfl
    | cons d ds => exact absurd hlist.symm (hne d _)
  | cons c cs ih =>
    cases ds with
    | nil => exact absurd hlist (hne c _)
    | cons d ds =>
      obtain ⟨rfl, hrest⟩ := escapeChar_unambiguous hlist
      rw [ih ds hrest]

theorem not_mem_escape (s : String) : '<' ∉ (escape s).toList := by
  rw [escape, String.toList_ofList, List.mem_flatMap]
  rintro ⟨c, -, hc⟩
  unfold escapeChar at hc
  split_ifs at hc with hamp hlt hgt
  · exact absurd hc (by decide)
  · exact absurd hc (by decide)
  · exact absurd hc (by decide)
  · exact hlt (List.mem_singleton.1 hc).symm

section Lines
variable {unit : String} {depth : Nat} {e e' : Element} {x y : List Char}

def indentation (unit : String) (depth : Nat) : List Char :=
  (List.replicate depth unit.toList).flatten

theorem not_mem_indentation (h : '<' ∉ unit.toList) (depth : Nat) :
    '<' ∉ indentation unit depth := by
  rw [indentation, List.mem_flatten]
  rintro ⟨cs, hcs, hmem⟩
  rw [List.eq_of_mem_replicate hcs] at hmem
  exact h hmem

def renderedChars (unit : String) (ls : List Line) : List Char :=
  ls.flatMap fun l => (l.render unit).toList

theorem toList_render (unit : String) (l : Line) :
    (l.render unit).toList = indentation unit l.depth ++ (l.text.toList ++ ['\n']) := by
  have hjoin : (String.join (List.replicate l.depth unit)).toList = indentation unit l.depth := by
    rw [String.toList_join, List.flatMap_replicate, indentation]
  simp [Line.render, hjoin]

def Element.behindName (unit : String) (depth : Nat) : Element → List Char
  | .text name content =>
    (escape content).toList ++ '<' :: '/' :: (name.toList ++ ['>', '\n'])
  | .group name children =>
    '\n' :: (renderedChars unit (linesOfAll (depth + 1) children) ++
      (indentation unit depth ++ '<' :: '/' :: (name.toList ++ ['>', '\n'])))

def Element.name : Element → String
  | .text name _ => name
  | .group name _ => name

theorem renderedChars_lines (unit : String) (depth : Nat) (e : Element) :
    renderedChars unit (e.lines depth) =
      indentation unit depth ++ '<' :: (e.name.toList ++ '>' :: e.behindName unit depth) := by
  cases e with
  | text name content =>
    simp [renderedChars, Element.lines, toList_render, Element.name, Element.behindName, openTag,
      closeTag]
  | group name children =>
    simp [renderedChars, Element.lines, toList_render, Element.name, Element.behindName, openTag,
      closeTag]

/-- Behind a `<`, the name of an element does not begin a closing tag. -/
theorem IsName.append_ne_slash {name : String} (h : IsName name) (x y : List Char) :
    name.toList ++ '>' :: x ≠ '/' :: y := by
  intro he
  cases hn : name.toList with
  | nil =>
    rw [hn] at he
    exact absurd (List.cons.inj he).1 (by decide)
  | cons c cs =>
    rw [hn] at he
    apply h.2
    rw [hn, ← (List.cons.inj he).1]
    rfl

theorem Element.Proper.isName (h : e.Proper) : IsName e.name := by
  cases h with
  | text isName => exact isName
  | group isName _ _ => exact isName

/-- Is the element read off what is written, with what stands behind it? -/
def Element.ReadsOff (unit : String) (e : Element) : Prop :=
  ∀ (e' : Element) (depth : Nat) (x y : List Char), e'.Proper →
    renderedChars unit (e.lines depth) ++ x = renderedChars unit (e'.lines depth) ++ y →
      e = e' ∧ x = y

theorem renderedChars_linesOfAll_cons (unit : String) (depth : Nat) (e : Element)
    (es : List Element) : renderedChars unit (linesOfAll depth (e :: es)) =
      renderedChars unit (e.lines depth) ++ renderedChars unit (linesOfAll depth es) := by
  rw [linesOfAll, renderedChars, List.flatMap_append]
  rfl

/-- Elements with different names are told apart by their first tags. -/
theorem behindName_unambiguous (he : e.Proper) (he' : e'.Proper)
    (h : renderedChars unit (e.lines depth) ++ x = renderedChars unit (e'.lines depth) ++ y) :
    e.name = e'.name ∧ e.behindName unit depth ++ x = e'.behindName unit depth ++ y := by
  simp only [renderedChars_lines, List.append_assoc, List.cons_append] at h
  have htag := (List.cons.inj (List.append_cancel_left h)).2
  obtain ⟨hname, hbehind⟩ := before_mark_unambiguous he.isName.1 he'.isName.1 htag
  exact ⟨String.toList_inj.1 hname, hbehind⟩

/-- A closing tag is no child. -/
theorem closing_ne_child {gap : List Char} (hu : '<' ∉ unit.toList) (hgap : '<' ∉ gap)
    (he : e.Proper) : gap ++ '<' :: '/' :: x ≠ renderedChars unit (e.lines depth) ++ y := by
  intro h
  rw [renderedChars_lines, List.append_assoc, List.cons_append] at h
  have hname := (before_mark_unambiguous hgap (not_mem_indentation hu depth) h).2
  rw [List.append_assoc, List.cons_append] at hname
  exact he.isName.append_ne_slash _ _ hname.symm

/-- The children of a group end where a closing tag follows. -/
theorem children_unambiguous {es es' : List Element} {gap : List Char} (hu : '<' ∉ unit.toList)
    (hgap : '<' ∉ gap) (hes : ∀ e ∈ es, e.Proper ∧ e.ReadsOff unit) (hes' : ∀ e ∈ es', e.Proper)
    (h : renderedChars unit (linesOfAll depth es) ++ (gap ++ '<' :: '/' :: x) =
      renderedChars unit (linesOfAll depth es') ++ (gap ++ '<' :: '/' :: y)) :
    es = es' ∧ x = y := by
  induction es generalizing es' with
  | nil =>
    cases es' with
    | nil =>
      have hrest := (before_mark_unambiguous hgap hgap h).2
      exact ⟨rfl, (List.cons.inj hrest).2⟩
    | cons e' es' =>
      rw [renderedChars_linesOfAll_cons, List.append_assoc] at h
      exact absurd h (closing_ne_child hu hgap (hes' e' List.mem_cons_self))
  | cons e es ih =>
    obtain ⟨⟨he, hread⟩, hmore⟩ := List.forall_mem_cons.1 hes
    cases es' with
    | nil =>
      rw [renderedChars_linesOfAll_cons, List.append_assoc] at h
      exact absurd h.symm (closing_ne_child hu hgap he)
    | cons e' es' =>
      obtain ⟨he', hrest'⟩ := List.forall_mem_cons.1 hes'
      rw [renderedChars_linesOfAll_cons, renderedChars_linesOfAll_cons, List.append_assoc,
        List.append_assoc] at h
      obtain ⟨rfl, hbehind⟩ := hread e' depth _ _ he' h
      obtain ⟨rfl, hxy⟩ := ih hmore hrest' hbehind
      exact ⟨rfl, hxy⟩

/-- The content of a text is followed by its closing tag, and that of a group by another tag. -/
theorem text_ne_group {content : String} {children : List Element} (hu : '<' ∉ unit.toList)
    (hne : children ≠ []) (hchildren : ∀ e ∈ children, e.Proper) :
    (escape content).toList ++ '<' :: '/' :: x ≠
      '\n' :: (renderedChars unit (linesOfAll depth children) ++ y) := by
  obtain ⟨child, rest, rfl⟩ := List.exists_cons_of_ne_nil hne
  have hchild := hchildren child List.mem_cons_self
  intro h
  rw [renderedChars_linesOfAll_cons, renderedChars_lines, List.append_assoc, List.append_assoc,
    List.cons_append, ← List.cons_append] at h
  have hgap : '<' ∉ '\n' :: indentation unit depth :=
    List.not_mem_cons_of_ne_of_not_mem (by decide) (not_mem_indentation hu depth)
  have hname := (before_mark_unambiguous (not_mem_escape content) hgap h).2
  rw [List.append_assoc, List.cons_append] at hname
  exact hchild.isName.append_ne_slash _ _ hname.symm

theorem Element.Proper.readsOff (hu : '<' ∉ unit.toList) (h : e.Proper) : e.ReadsOff unit := by
  induction h with
  | @text name content isName =>
    intro e' depth x y he' h
    have hrest := behindName_unambiguous (.text isName) he' h
    cases he' with
    | @text name' content' =>
      obtain ⟨rfl, hbehind⟩ : name = name' ∧ _ := hrest
      simp only [behindName, List.append_assoc, List.cons_append] at hbehind
      obtain ⟨hcontent, htail⟩ :=
        before_mark_unambiguous (not_mem_escape content) (not_mem_escape content') hbehind
      obtain rfl := escape_injective (String.toList_inj.1 hcontent)
      exact ⟨rfl, by simpa using htail⟩
    | group _ nonempty each =>
      have hbehind := hrest.2
      simp only [behindName, List.append_assoc, List.cons_append] at hbehind
      exact absurd hbehind (text_ne_group hu nonempty each)
  | @group name children isName nonempty each ih =>
    intro e' depth x y he' h
    have hrest := behindName_unambiguous (.group isName nonempty each) he' h
    cases he' with
    | text =>
      have hbehind := hrest.2
      simp only [behindName, List.append_assoc, List.cons_append] at hbehind
      exact absurd hbehind.symm (text_ne_group hu nonempty each)
    | @group name' children' _ _ each' =>
      obtain ⟨rfl, hbehind⟩ : name = name' ∧ _ := hrest
      simp only [behindName, List.append_assoc, List.cons_append] at hbehind
      obtain ⟨rfl, htail⟩ := children_unambiguous hu (not_mem_indentation hu depth)
        (fun e he => ⟨each e he, ih e he⟩) each' (List.cons.inj hbehind).2
      exact ⟨rfl, by simpa using htail⟩

/-- Elements that are written alike are the same. -/
theorem render_injective (hu : '<' ∉ unit.toList) (he : e.Proper) (he' : e'.Proper)
    (h : e.render unit = e'.render unit) : e = e' := by
  have hchars (e : Element) : (e.render unit).toList = renderedChars unit (e.lines 0) := by
    rw [Element.render, String.toList_join, List.flatMap_map, renderedChars]
  have hlines : renderedChars unit (e.lines 0) ++ [] = renderedChars unit (e'.lines 0) ++ [] := by
    rw [← hchars, ← hchars, h]
  exact (he.readsOff hu e' 0 [] [] he' hlines).1

end Lines

end ContextQuery.Xml
