import ContextQuery.Json.Reader
import ContextQuery.Json.Writer
import ContextQuery.Proofs.Entries

namespace ContextQuery.Json

namespace Lexeme

/-- The lexemes `ls` are read from the characters `cs`, whatever stands around them. -/
def Scans (cs : List Char) (ls : List Lexeme) : Prop :=
  ∀ done rest, scanAfter done (cs ++ rest) = scanAfter (ls.reverse ++ done) rest

namespace Scans

theorem nil : Scans [] [] := fun _ _ => rfl

theorem append {cs ds : List Char} {ls ms : List Lexeme} (h : Scans cs ls) (h' : Scans ds ms) :
    Scans (cs ++ ds) (ls ++ ms) := by
  intro done rest
  rw [List.append_assoc, h, h', List.reverse_append, List.append_assoc]

theorem space {cs : List Char} (h : cs.all isSpace = true) : Scans cs [] := by
  intro done rest
  induction cs with
  | nil => rfl
  | cons c cs ih =>
    rw [List.all_cons, Bool.and_eq_true] at h
    rw [List.cons_append, scanAfter, if_pos h.1]
    exact ih h.2

theorem mark {c : Char} {l : Lexeme} (hc : isSpace c = false) (h : mark? c = some l) :
    Scans [c] [l] := by
  intro done rest
  rw [List.singleton_append, scanAfter, if_neg (Bool.eq_false_iff.1 hc)]
  simp only [h, List.reverse_singleton, List.singleton_append]

end Scans

theorem unit?_hexDigit :
    ∀ n < 0x20, unit? '0' '0' (hexDigit (n / 16)) (hexDigit (n % 16)) = some n := by
  decide

theorem escape?_control {c : Char} (h : c.toNat < 0x20) (rest : List Char) :
    escape? ('u' :: '0' :: '0' :: hexDigit (c.toNat / 16) :: hexDigit (c.toNat % 16) :: rest) =
      some (c, rest) := by
  have hhigh : isHighSurrogate c.toNat = false := by
    simp only [isHighSurrogate, Bool.and_eq_false_iff, decide_eq_false_iff_not]
    omega
  have hlow : isLowSurrogate c.toNat = false := by
    simp only [isLowSurrogate, Bool.and_eq_false_iff, decide_eq_false_iff_not]
    omega
  simp [escape?, unit?_hexDigit _ h, afterUnit, hhigh, hlow, Char.ofNat_toNat]

/-- A backslash and what stands behind it. -/
theorem stringBody?_escape {cs rest : List Char} {c : Char} (h : escape? cs = some (c, rest)) :
    stringBody? ('\\' :: cs) = (stringBody? rest).map fun (body, after) => (c :: body, after) := by
  rw [stringBody?, if_neg (by decide), if_pos rfl]
  split
  · next h' => rw [h] at h'; cases h'
  · next h' => rw [h] at h'; cases h'; rfl

theorem stringBody?_escapeChar (c : Char) (rest : List Char) :
    stringBody? (escapeChar c ++ rest) =
      (stringBody? rest).map fun (body, after) => (c :: body, after) := by
  unfold escapeChar
  split
  · next h => subst h; exact stringBody?_escape rfl
  split
  · next h => subst h; exact stringBody?_escape rfl
  split
  · next h => subst h; exact stringBody?_escape rfl
  split
  · next h => subst h; exact stringBody?_escape rfl
  split
  · next h => subst h; exact stringBody?_escape rfl
  split
  · next h => subst h; exact stringBody?_escape rfl
  split
  · next h => subst h; exact stringBody?_escape rfl
  split
  · next h => exact stringBody?_escape (escape?_control h rest)
  · next hq hb _ _ _ _ _ hc =>
    rw [List.singleton_append, stringBody?, if_neg hq, if_neg hb, if_neg hc]

theorem stringBody?_quoted (cs rest : List Char) :
    stringBody? (cs.flatMap escapeChar ++ '"' :: rest) = some (cs, rest) := by
  induction cs with
  | nil => rw [List.flatMap_nil, List.nil_append, stringBody?, if_pos rfl]
  | cons c cs ih =>
    rw [List.flatMap_cons, List.append_assoc, stringBody?_escapeChar, ih]
    rfl

theorem Scans.quote (s : String) : Scans (quote s).toList [.string s] := by
  intro done rest
  have hq : (Json.quote s).toList ++ rest =
      '"' :: (s.toList.flatMap escapeChar ++ '"' :: rest) := by
    simp [Json.quote]
  have hother : other? '"' (s.toList.flatMap escapeChar ++ '"' :: rest) =
      some (.string s, rest) := by
    rw [other?, if_pos rfl, stringBody?_quoted]
    simp
  rw [hq, scanAfter, if_neg (by decide)]
  simp only [show mark? '"' = none from rfl]
  split
  · next h => rw [hother] at h; cases h
  · next h =>
    rw [hother] at h
    cases h
    rfl

theorem Scans.scan?_eq {s : String} {ls : List Lexeme} (h : Scans s.toList ls) :
    scan? s = some ls := by
  have := h [] []
  rw [List.append_nil, List.append_nil] at this
  rw [scan?, this, scanAfter, List.reverse_reverse]

end Lexeme

/-- With the lexemes `ls` the assembler comes from one place to another. -/
def Assembles (limit : Option Nat) (repeats : Repeats) (ls : List Lexeme)
    (s t : Place × List Level) : Prop :=
  ∀ rest, assemble? limit repeats s.1 s.2 (ls ++ rest) = assemble? limit repeats t.1 t.2 rest

variable {limit : Option Nat} {repeats : Repeats} {levels : List Level}

theorem Assembles.append {ls ms : List Lexeme} {s t u : Place × List Level}
    (h : Assembles limit repeats ls s t) (h' : Assembles limit repeats ms t u) :
    Assembles limit repeats (ls ++ ms) s u := by
  intro rest
  rw [List.append_assoc, h, h']

theorem Assembles.cons {l : Lexeme} {ls : List Lexeme} {s t u : Place × List Level}
    (h : step? limit repeats s.1 s.2 l = some t) (h' : Assembles limit repeats ls t u) :
    Assembles limit repeats (l :: ls) s u := by
  intro rest
  rw [List.cons_append, assemble?, h]
  exact h' rest

theorem Assembles.single {l : Lexeme} {s t : Place × List Level}
    (h : step? limit repeats s.1 s.2 l = some t) : Assembles limit repeats [l] s t :=
  .cons h fun _ => rfl

def memberLexemes (m : String × String) : List Lexeme := [.string m.1, .colon, .string m.2]

def membersLexemes (ms : List (String × String)) : List Lexeme :=
  [Lexeme.comma].intercalate (ms.map memberLexemes)

def stringMember (m : String × String) : String × Json := (m.1, .string m.2)

def Repeats.addAll (repeats : Repeats) (acc members : List (String × Json)) :
    List (String × Json) :=
  members.foldl (fun acc e => repeats.add e.1 e.2 acc) acc

theorem addAll_kept (acc members : List (String × Json)) :
    Repeats.kept.addAll acc members = acc ++ members := by
  induction members generalizing acc with
  | nil => exact (List.append_nil acc).symm
  | cons e members ih =>
    change Repeats.kept.addAll (acc ++ [e]) members = _
    rw [ih, List.append_assoc]
    rfl

/-- The members of an object up to the lexeme `l` behind them, which comes to the place `finish`. -/
theorem assembles_members (finish : List (String × Json) → Place) {l : Lexeme}
    (hl : ∀ acc name v, close? repeats v (.object acc name :: levels) l =
      some (finish (repeats.add name v acc), levels))
    {start : Place} {acc : List (String × Json)}
    (hstart : ∀ s, step? limit repeats start levels (.string s) = some (.colon acc s, levels))
    (m : String × String) (ms : List (String × String)) :
    Assembles limit repeats (membersLexemes (m :: ms) ++ [l]) (start, levels)
      (finish (repeats.addAll acc ((m :: ms).map stringMember)), levels) := by
  induction ms generalizing m start acc with
  | nil => exact .cons (hstart m.1) (.cons rfl (.cons rfl (.single (hl acc m.1 _))))
  | cons m' ms ih =>
    have hrest : Assembles limit repeats (membersLexemes (m' :: ms) ++ [l])
        (.name (repeats.add m.1 (.string m.2) acc), levels)
        (finish (repeats.addAll acc ((m :: m' :: ms).map stringMember)), levels) :=
      ih (fun _ => rfl) m'
    exact .cons (hstart m.1) (.cons rfl (.cons rfl (.cons rfl hrest)))

theorem read?_eq {s : String} {ls : List Lexeme} {v : Json} (hs : Lexeme.Scans s.toList ls)
    (h : Assembles limit repeats ls (.value, []) (.after v, [])) :
    read? limit repeats s = some v := by
  have := h []
  rw [List.append_nil] at this
  rw [read?, hs.scan?_eq]
  exact this

end ContextQuery.Json
