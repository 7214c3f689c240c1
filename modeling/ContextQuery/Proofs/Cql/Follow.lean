import ContextQuery.Proofs.Cql.Refusal

namespace ContextQuery.Cql

/-- Does the text behind a phrase go on with the same token as before, with one of these kinds, or
not at all? -/
def Follows (kinds : List TokenKind) (rest rest' : List Token) : Prop :=
  rest'.head? = rest.head? ∨ ∀ t ∈ rest'.head?, t.kind ∈ kinds

namespace Follows
variable {kinds : List TokenKind} {rest rest' : List Token}

theorem append (h : Follows kinds rest rest') (front : List Token) :
    Follows kinds (front ++ rest) (front ++ rest') := by
  cases front with
  | nil => exact h
  | cons t front => exact .inl rfl

theorem forall_head? (h : Follows kinds rest rest') {P : Token → Prop}
    (hkinds : ∀ t, t.kind ∈ kinds → P t) (hrest : ∀ t ∈ rest.head?, P t) :
    ∀ t ∈ rest'.head?, P t := by
  rcases h with h | h
  · rwa [h]
  · exact fun t ht => hkinds t (h t ht)

theorem mono {kinds' : List TokenKind} (h : Follows kinds rest rest') (hsub : kinds ⊆ kinds') :
    Follows kinds' rest rest' :=
  h.imp id fun hkinds t ht => hsub (hkinds t ht)

end Follows

section Follow
variable {ts rest : List Token}

/-- Modifiers stay what they are where a quoted word or a parenthesis stands behind them. -/
theorem IsModifiers.follow {ms : List Modifier} (h : IsModifiers ts ms rest) :
    ∃ front, ts = front ++ rest ∧ ∀ rest', Follows [.quoted, .closeParen] rest rest' →
      IsModifiers (front ++ rest') ms rest' := by
  induction h with
  | none stop =>
    refine ⟨[], rfl, fun rest' hfollows => .none (hfollows.forall_head? (fun t ht => ?_) stop)⟩
    intro hk
    simp [hk] at ht
  | @flag slash name ts rest ms mark word named stop _ ih =>
    obtain ⟨front, rfl, hfront⟩ := ih
    refine ⟨slash :: name :: front, rfl, fun rest' hfollows =>
      .flag mark word named ((hfollows.append front).forall_head? (fun t ht => ?_) stop)
        (hfront rest' hfollows)⟩
    intro hk
    simp [hk] at ht
  | @comparison slash name comparator value ts rest ms mark word named relation operand _ ih =>
    obtain ⟨front, rfl, hfront⟩ := ih
    exact ⟨slash :: name :: comparator :: value :: front, rfl, fun rest' hfollows =>
      .comparison mark word named relation operand (hfront rest' hfollows)⟩

theorem IsRun.follow {c : Bool} {last : Token} {run : List Token} (h : IsRun c last ts run rest) :
    ∃ front, ts = front ++ rest ∧ ∀ rest', Follows [.quoted, .closeParen] rest rest' →
      IsRun c last (front ++ rest') run rest' := by
  induction h with
  | stop gap =>
    refine ⟨[], rfl, fun rest' hfollows => .stop (hfollows.forall_head? (fun t ht => ?_) gap)⟩
    rintro ⟨hcontinues, -⟩
    rcases List.mem_cons.1 ht with hk | hk
    · simp [Token.continues, hk] at hcontinues
    · simp [Token.continues, List.mem_singleton.1 hk] at hcontinues
  | @step last t ts run rest continues touches _ ih =>
    obtain ⟨front, rfl, hfront⟩ := ih
    exact ⟨t :: front, rfl, fun rest' hfollows => .step continues touches (hfront rest' hfollows)⟩

theorem IsIdentifier.follow {c : Bool} {id : String} (h : IsIdentifier c ts id rest) :
    ∃ first front, ts = first :: front ++ rest ∧
      ∀ rest', Follows [.quoted, .closeParen] rest rest' →
        IsIdentifier c (first :: front ++ rest') id rest' := by
  cases h with
  | @quoted t _ kind => exact ⟨t, [], rfl, fun rest' _ => .quoted kind⟩
  | @bare t _ _ _ kind more =>
    obtain ⟨front, rfl, hfront⟩ := more.follow
    exact ⟨t, front, rfl, fun rest' hfollows => .bare kind (hfront rest' hfollows)⟩

theorem IsDeclaration.follow {d : String × String} (h : IsDeclaration ts d rest) :
    ∃ front, ts = front ++ rest ∧ ∀ rest', Follows [.quoted, .closeParen] rest rest' →
      IsDeclaration (front ++ rest') d rest' := by
  cases h with
  | @named key sign _ _ _ word equals identifier =>
    obtain ⟨first, front, rfl, hfront⟩ := identifier.follow
    exact ⟨key :: sign :: first :: front, rfl, fun rest' hfollows =>
      .named word equals (hfront rest' hfollows)⟩
  | @unnamed t _ _ _ bare identifier =>
    obtain ⟨first, front, heq, hfront⟩ := identifier.follow
    obtain ⟨rfl, rfl⟩ := List.cons.inj heq
    refine ⟨t :: front, rfl, fun rest' hfollows => .unnamed
      ((hfollows.append front).forall_head? (fun t ht => ?_) bare) (hfront rest' hfollows)⟩
    simp only [List.mem_cons, List.not_mem_nil, or_false] at ht
    rcases ht with hk | hk <;> simp [Token.isComparator, hk]

/-- A phrase stays what it is where a parenthesis closes behind it. -/
theorem Derives.follow {phrase : Phrase} {scope : Scope} {r : Registry} {m : Meaning}
    (h : Derives phrase scope r ts m rest) :
    ∃ front, ts = front ++ rest ∧ ∀ rest', Follows [.closeParen] rest rest' →
      Derives phrase scope r (front ++ rest') m rest' := by
  have hkinds : [TokenKind.closeParen] ⊆ [.quoted, .closeParen] := by decide
  induction h with
  | query _ _ ihf ihc =>
    obtain ⟨front, rfl, hfirst⟩ := ihf
    obtain ⟨behind, rfl, hchain⟩ := ihc
    refine ⟨front ++ behind, (List.append_assoc ..).symm, fun rest' hfollows => ?_⟩
    rw [List.append_assoc]
    exact .query (hfirst _ (hfollows.append behind)) (hchain rest' hfollows)
  | stop stop =>
    refine ⟨[], rfl, fun rest' hfollows => .stop (hfollows.forall_head? (fun t ht => ?_) stop)⟩
    simp [Token.operator?, List.mem_singleton.1 ht]
  | @operator _ _ t _ _ _ _ _ _ _ _ _ keyword modifiers _ _ iho ihc =>
    obtain ⟨marks, rfl, hmodifiers⟩ := modifiers.follow
    obtain ⟨front, rfl, hoperand⟩ := iho
    obtain ⟨behind, rfl, hchain⟩ := ihc
    refine ⟨t :: (marks ++ (front ++ behind)), by simp, fun rest' hfollows => ?_⟩
    have hbehind := hfollows.append behind
    rw [List.cons_append, List.append_assoc, List.append_assoc]
    exact .operator keyword (hmodifiers _ ((hbehind.append front).mono hkinds))
      (hoperand _ hbehind) (hchain rest' hfollows)
  | @group _ _ opening closing _ rest _ opens _ closes ih =>
    obtain ⟨front, rfl, hquery⟩ := ih
    refine ⟨opening :: (front ++ [closing]), by simp, fun rest' _ => ?_⟩
    rw [List.cons_append, List.append_assoc]
    exact .group opens (hquery (closing :: rest') (.inl rfl)) closes
  | @term _ _ t _ word stop =>
    refine ⟨[t], rfl, fun rest' hfollows =>
      .term word (hfollows.forall_head? (fun u hu => ?_) stop)⟩
    simp [Token.isRelation, Token.isWord, List.mem_singleton.1 hu]
  | @indexed _ _ t relation _ _ _ _ _ word isRelation modifiers _ ih =>
    obtain ⟨marks, rfl, hmodifiers⟩ := modifiers.follow
    obtain ⟨front, rfl, hclause⟩ := ih
    refine ⟨t :: relation :: (marks ++ front), by simp, fun rest' hfollows => ?_⟩
    rw [List.cons_append, List.cons_append, List.append_assoc]
    exact .indexed word isRelation (hmodifiers _ ((hfollows.append front).mono hkinds))
      (hclause rest' hfollows)
  | @declaration _ _ t _ _ _ _ _ mark declaration _ ih =>
    obtain ⟨words, rfl, hdeclaration⟩ := declaration.follow
    obtain ⟨front, rfl, hquery⟩ := ih
    refine ⟨t :: (words ++ front), by simp, fun rest' hfollows => ?_⟩
    rw [List.cons_append, List.append_assoc]
    exact .declaration mark (hdeclaration _ ((hfollows.append front).mono hkinds))
      (hquery rest' hfollows)

end Follow

section Stays
variable {ts place : List Token} {cause : Cause}

/-- The head of what is left is the same behind the same tokens. -/
theorem head?_append_eq {rest rest' : List Token} (h : rest'.head? = rest.head?)
    (front : List Token) : (front ++ rest').head? = (front ++ rest).head? := by
  rw [List.head?_append, List.head?_append, h]

theorem RefusesModifiers.stays (h : RefusesModifiers ts cause place) :
    ∃ front, ts = front ++ place ∧ ∀ place', place'.head? = place.head? →
      RefusesModifiers (front ++ place') cause place' := by
  induction h with
  | @name slash ts mark nameless =>
    refine ⟨[slash], rfl, fun place' hhead => .name mark ?_⟩
    rw [← hhead] at nameless
    exact nameless
  | @value slash name comparator ts mark word named relation missing =>
    refine ⟨[slash, name, comparator], rfl, fun place' hhead =>
      .value mark word named relation ?_⟩
    rw [← hhead] at missing
    exact missing
  | @flag slash name ts place cause mark word named stop _ ih =>
    obtain ⟨front, rfl, hfront⟩ := ih
    refine ⟨slash :: name :: front, rfl, fun place' hhead =>
      .flag mark word named ?_ (hfront place' hhead)⟩
    rw [← head?_append_eq hhead] at stop
    exact stop
  | @comparison slash name comparator value ts place cause mark word named relation operand _ ih =>
    obtain ⟨front, rfl, hfront⟩ := ih
    exact ⟨slash :: name :: comparator :: value :: front, rfl, fun place' hhead =>
      .comparison mark word named relation operand (hfront place' hhead)⟩

theorem RefusesDeclaration.stays (h : RefusesDeclaration ts place) :
    ∃ front, ts = front ++ place ∧ ∀ place', place'.head? = place.head? →
      RefusesDeclaration (front ++ place') place' := by
  cases h with
  | first missing =>
    refine ⟨[], rfl, fun place' hhead => .first ?_⟩
    rw [← hhead] at missing
    exact missing
  | @identifier key sign ts word equals missing =>
    refine ⟨[key, sign], rfl, fun place' hhead => .identifier word equals ?_⟩
    rw [← hhead] at missing
    exact missing

/-- The tokens behind the one to blame have no part in a refusal, unless it is for depth. -/
theorem Refuses.stays {n : Nat} {phrase : Phrase} {scope : Scope} {r : Registry}
    (h : Refuses n phrase scope r ts cause place) (hdeep : cause ≠ .nestedTooDeeply) :
    ∃ front, ts = front ++ place ∧ ∀ place', place'.head? = place.head? →
      Refuses n phrase scope r (front ++ place') cause place' := by
  induction h with
  | first _ ih =>
    obtain ⟨front, rfl, hclause⟩ := ih hdeep
    exact ⟨front, rfl, fun place' hhead => .first (hclause place' hhead)⟩
  | further clause fits _ ih =>
    obtain ⟨front, rfl, hclause⟩ := clause.follow
    obtain ⟨behind, rfl, hchain⟩ := ih hdeep
    refine ⟨front ++ behind, (List.append_assoc ..).symm, fun place' hhead => ?_⟩
    rw [List.append_assoc]
    exact .further (hclause _ (.inl (head?_append_eq hhead behind))) fits (hchain place' hhead)
  | @operator _ _ _ t _ _ _ _ _ keyword modifiers =>
    obtain ⟨front, rfl, hmodifiers⟩ := modifiers.stays
    exact ⟨t :: front, rfl, fun place' hhead => .operator keyword (hmodifiers place' hhead)⟩
  | @operand _ _ _ t _ _ _ _ _ _ _ keyword modifiers _ ih =>
    obtain ⟨marks, rfl, hmodifiers⟩ := modifiers.follow
    obtain ⟨front, rfl, hoperand⟩ := ih hdeep
    refine ⟨t :: (marks ++ front), by simp, fun place' hhead => ?_⟩
    rw [List.cons_append, List.append_assoc]
    exact .operand keyword (hmodifiers _ (.inl (head?_append_eq hhead front)))
      (hoperand place' hhead)
  | height => exact absurd rfl hdeep
  | @chain _ _ _ t _ _ _ _ _ _ _ _ _ keyword modifiers operand fits _ ih =>
    obtain ⟨marks, rfl, hmodifiers⟩ := modifiers.follow
    obtain ⟨front, rfl, hoperand⟩ := operand.follow
    obtain ⟨behind, rfl, hchain⟩ := ih hdeep
    refine ⟨t :: (marks ++ (front ++ behind)), by simp, fun place' hhead => ?_⟩
    have hbehind := head?_append_eq hhead behind
    rw [List.cons_append, List.append_assoc, List.append_assoc]
    exact .chain keyword (hmodifiers _ (.inl (head?_append_eq hbehind front)))
      (hoperand _ (.inl hbehind)) fits (hchain place' hhead)
  | nesting => exact absurd rfl hdeep
  | endOfText =>
    refine ⟨[], rfl, fun place' hhead => ?_⟩
    rw [List.head?_eq_none_iff.1 hhead]
    exact .endOfText
  | start noGroup noWord noMark =>
    refine ⟨[], rfl, fun place' hhead => ?_⟩
    obtain ⟨more, rfl⟩ := List.head?_eq_some_iff.1 hhead
    exact .start noGroup noWord noMark
  | @group _ _ _ opening _ _ _ opens _ ih =>
    obtain ⟨front, rfl, hquery⟩ := ih hdeep
    exact ⟨opening :: front, rfl, fun place' hhead => .group opens (hquery place' hhead)⟩
  | @unclosed _ _ _ opening _ _ _ opens query fits unclosed =>
    obtain ⟨front, rfl, hquery⟩ := query.follow
    refine ⟨opening :: front, rfl, fun place' hhead =>
      .unclosed opens (hquery place' (.inl hhead)) fits ?_⟩
    rwa [hhead]
  | @relation _ _ _ t relation _ _ _ word isRelation modifiers =>
    obtain ⟨front, rfl, hmodifiers⟩ := modifiers.stays
    exact ⟨t :: relation :: front, rfl, fun place' hhead =>
      .relation word isRelation (hmodifiers place' hhead)⟩
  | @indexed _ _ _ t relation _ _ _ _ _ word isRelation modifiers _ ih =>
    obtain ⟨marks, rfl, hmodifiers⟩ := modifiers.follow
    obtain ⟨front, rfl, hclause⟩ := ih hdeep
    refine ⟨t :: relation :: (marks ++ front), by simp, fun place' hhead => ?_⟩
    rw [List.cons_append, List.cons_append, List.append_assoc]
    exact .indexed word isRelation (hmodifiers _ (.inl (head?_append_eq hhead front)))
      (hclause place' hhead)
  | @declaration _ _ _ t _ _ mark declaration =>
    obtain ⟨front, rfl, hdeclaration⟩ := declaration.stays
    exact ⟨t :: front, rfl, fun place' hhead => .declaration mark (hdeclaration place' hhead)⟩
  | @declared _ _ _ t _ _ _ _ _ mark declaration _ ih =>
    obtain ⟨words, rfl, hdeclaration⟩ := declaration.follow
    obtain ⟨front, rfl, hquery⟩ := ih hdeep
    refine ⟨t :: (words ++ front), by simp, fun place' hhead => ?_⟩
    rw [List.cons_append, List.append_assoc]
    exact .declared mark (hdeclaration _ (.inl (head?_append_eq hhead front)))
      (hquery place' hhead)

end Stays

end ContextQuery.Cql
