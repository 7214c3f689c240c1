import ContextQuery.Fq.Writer
import ContextQuery.Proofs.Json.Text

namespace ContextQuery.Fq
open Json

namespace Document

def Filled : Document → Prop
  | .clause ms => ms ≠ []
  | .boolean ms s1 s2 => ms ≠ [] ∧ s1.Filled ∧ s2.Filled

def height : Document → Nat
  | .clause _ => 1
  | .boolean _ s1 s2 => 1 + max s1.height s2.height

def lexemes : Document → List Lexeme
  | .clause ms => .openBrace :: (membersLexemes ms ++ [.closeBrace])
  | .boolean ms s1 s2 =>
    .openBrace :: ((membersLexemes ms ++ [.comma]) ++ (.string "s1" :: .colon :: (s1.lexemes ++
      (.comma :: .string "s2" :: .colon :: (s2.lexemes ++ [.closeBrace])))))

/-- The members of an object as JSON; one that comes again replaces the other. -/
def members (ms : List (String × String)) : List (String × Json) :=
  Entries.insertAll [] (ms.map stringMember)

def json : Document → Json
  | .clause ms => .object (members ms)
  | .boolean ms s1 s2 =>
    .object (Entries.insert "s2" s2.json (Entries.insert "s1" s1.json (members ms)))

/-- The object that is read from the document where a member that comes again replaces the other, or
where both are kept. -/
def object (repeats : Repeats) : Document → Json
  | .clause ms => .object (repeats.addAll [] (ms.map stringMember))
  | .boolean ms s1 s2 =>
    .object (repeats.add "s2" (s2.object repeats) (repeats.add "s1" (s1.object repeats)
      (repeats.addAll [] (ms.map stringMember))))

theorem object_replaced (d : Document) : d.object .replaced = d.json := by
  induction d with
  | clause ms => rfl
  | boolean ms s1 s2 ih1 ih2 =>
    rw [object, ih1, ih2]
    rfl

theorem assembles {limit : Nat} {repeats : Repeats} {d : Document} (hd : d.Filled)
    {levels : List Level} (h : levels.length + d.height ≤ limit) :
    Assembles (some limit) repeats d.lexemes (.value, levels)
      (.after (d.object repeats), levels) := by
  induction d generalizing levels with
  | clause ms =>
    obtain ⟨m, ms, rfl⟩ := List.exists_cons_of_ne_nil hd
    have hopen : begin? (some limit) levels .openBrace = some (.firstName, levels) := by
      simp only [begin?, enter?, if_pos (show levels.length < limit from h), Option.map_some]
    have hmembers : Assembles (some limit) repeats (membersLexemes (m :: ms) ++ [.closeBrace])
        (.firstName, levels)
        (.after (.object (repeats.addAll [] ((m :: ms).map stringMember))), levels) :=
      assembles_members (fun acc => .after (.object acc)) (fun _ _ _ => rfl) (fun _ => rfl) m ms
    exact .cons hopen hmembers
  | boolean ms s1 s2 ih1 ih2 =>
    obtain ⟨hms, hd1, hd2⟩ := hd
    obtain ⟨m, ms, rfl⟩ := List.exists_cons_of_ne_nil hms
    rw [height] at h
    have hopen : begin? (some limit) levels .openBrace = some (.firstName, levels) := by
      simp only [begin?, enter?, if_pos (show levels.length < limit by omega), Option.map_some]
    have hmembers : Assembles (some limit) repeats (membersLexemes (m :: ms) ++ [.comma])
        (.firstName, levels) (.name (repeats.addAll [] ((m :: ms).map stringMember)), levels) :=
      assembles_members .name (fun _ _ _ => rfl) (fun _ => rfl) m ms
    have hroom1 (level : Level) : (level :: levels).length + s1.height ≤ limit := by
      rw [List.length_cons]
      omega
    have hroom2 (level : Level) : (level :: levels).length + s2.height ≤ limit := by
      rw [List.length_cons]
      omega
    have h1 := ih1 hd1 (hroom1 (.object (repeats.addAll [] ((m :: ms).map stringMember)) "s1"))
    have h2 := ih2 hd2 (hroom2 (.object (repeats.add "s1" (s1.object repeats)
      (repeats.addAll [] ((m :: ms).map stringMember))) "s2"))
    exact .cons hopen (hmembers.append (.cons rfl (.cons rfl (h1.append
      (.cons rfl (.cons rfl (.cons rfl (h2.append (.single rfl)))))))))

end Document

namespace Layout

def IsBlank (l : Layout) : Prop :=
  l.indent.toList.all Lexeme.isSpace = true ∧ l.newline.toList.all Lexeme.isSpace = true

theorem isBlank_standard : standard.IsBlank := by
  unfold IsBlank
  decide

theorem scans_writeMember (m : String × String) :
    Lexeme.Scans (writeMember m).toList (memberLexemes m) := by
  have hcolon : Lexeme.Scans [':'] [.colon] := .mark rfl rfl
  have hspace : Lexeme.Scans [' '] [] := .space (by decide)
  have h := (Lexeme.Scans.quote m.1).append (hcolon.append (hspace.append (.quote m.2)))
  simpa [writeMember, memberLexemes] using h

theorem scans_writeMembers (ms : List (String × String)) :
    Lexeme.Scans (writeMembers ms).toList (membersLexemes ms) := by
  have hcomma : Lexeme.Scans [','] [.comma] := .mark rfl rfl
  have hspace : Lexeme.Scans [' '] [] := .space (by decide)
  rw [writeMembers, String.toList_intercalate, membersLexemes]
  induction ms with
  | nil => exact .nil
  | cons m ms ih =>
    cases ms with
    | nil => simpa [List.intercalate] using scans_writeMember m
    | cons m' ms =>
      have h := (scans_writeMember m).append (hcomma.append (hspace.append ih))
      simpa [List.intercalate] using h

variable {l : Layout}

theorem IsBlank.indentation (hl : l.IsBlank) (n : Nat) :
    Lexeme.Scans (l.indentation n).toList [] := by
  apply Lexeme.Scans.space
  rw [List.all_eq_true]
  intro c hc
  rw [Layout.indentation, String.toList_join] at hc
  obtain ⟨cs, hcs, hc⟩ := List.mem_flatten.1 hc
  obtain ⟨s, hs, rfl⟩ := List.mem_map.1 hcs
  rw [List.eq_of_mem_replicate hs] at hc
  exact List.all_eq_true.1 hl.1 c hc

theorem scans_operandStart (hl : l.IsBlank) (n : Nat) (name : String) :
    Lexeme.Scans (l.operandStart n name).toList [.comma, .string name, .colon] := by
  have hcomma : Lexeme.Scans [','] [.comma] := .mark rfl rfl
  have hcolon : Lexeme.Scans [':'] [.colon] := .mark rfl rfl
  have hspace : Lexeme.Scans [' '] [] := .space (by decide)
  have h := hcomma.append ((Lexeme.Scans.space hl.2).append ((hl.indentation n).append
    (hspace.append ((Lexeme.Scans.quote name).append (hcolon.append hspace)))))
  simpa [operandStart] using h

theorem scans_lastLine (hl : l.IsBlank) (n : Nat) :
    Lexeme.Scans (l.lastLine n).toList [.closeBrace] := by
  have hclose : Lexeme.Scans ['\x7d'] [.closeBrace] := .mark rfl rfl
  have hblank : Lexeme.Scans (if n = 0 || l.indent.isEmpty then "" else " ").toList [] := by
    apply Lexeme.Scans.space
    split <;> decide
  have h := (Lexeme.Scans.space hl.2).append ((hl.indentation (n - 1)).append
    (hblank.append hclose))
  simpa [lastLine] using h

theorem scans_write (hl : l.IsBlank) (d : Document) (n : Nat) :
    Lexeme.Scans (l.write n d).toList d.lexemes := by
  have hopen : Lexeme.Scans ['\x7b'] [.openBrace] := .mark rfl rfl
  have hclose : Lexeme.Scans ['\x7d'] [.closeBrace] := .mark rfl rfl
  induction d generalizing n with
  | clause ms =>
    have h := hopen.append ((scans_writeMembers ms).append hclose)
    simpa [write, Document.lexemes] using h
  | boolean ms s1 s2 ih1 ih2 =>
    have h := hopen.append ((scans_writeMembers ms).append ((scans_operandStart hl n "s1").append
      ((ih1 (n + 1)).append ((scans_operandStart hl n "s2").append
        ((ih2 (n + 1)).append (scans_lastLine hl n))))))
    simpa [write, Document.lexemes] using h

/-- The text of a document is read as its object, whatever becomes of names that come again. -/
theorem read?_write_object (hl : l.IsBlank) {d : Document} (hd : d.Filled) {limit : Nat}
    (h : d.height ≤ limit) (repeats : Repeats) :
    read? (some limit) repeats (l.write 0 d) = some (d.object repeats) :=
  read?_eq (scans_write hl d 0) (Document.assembles hd (by
    rw [List.length_nil]
    omega))

/-- The text of a document is read as the object that it stands for. -/
theorem read?_write (hl : l.IsBlank) {d : Document} (hd : d.Filled) {limit : Nat}
    (h : d.height ≤ limit) : read? (some limit) .replaced (l.write 0 d) = some d.json := by
  rw [read?_write_object hl hd h, Document.object_replaced]

end Layout

end ContextQuery.Fq
