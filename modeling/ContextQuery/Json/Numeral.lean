import ContextQuery.Json.Value

namespace ContextQuery

/-- The parts of a numeral as written. No digits after the point means that there is no point. -/
structure Numeral where
  negative : Bool
  whole : List Nat
  fraction : List Nat
  exponent : Option Int

namespace Numeral

def digitValue (c : Char) : Nat := c.toNat - '0'.toNat

def ofDigits (ds : List Nat) : Nat := ds.foldl (fun n d => n * 10 + d) 0

def splitDigits (cs : List Char) : List Nat × List Char :=
  ((cs.takeWhile Char.isDigit).map digitValue, cs.dropWhile Char.isDigit)

def exponent? (cs : List Char) : Option Int :=
  let unsigned := match cs with
    | '+' :: rest => rest
    | '-' :: rest => rest
    | _ => cs
  match splitDigits unsigned with
  | ([], _) => none
  | (ds, []) => some (if cs.head? = some '-' then -(ofDigits ds : Int) else ofDigits ds)
  | (_, _ :: _) => none

def withExponent? (negative : Bool) (whole fraction : List Nat) : List Char → Option Numeral
  | [] => some ⟨negative, whole, fraction, none⟩
  | c :: rest =>
    if c = 'e' ∨ c = 'E' then (exponent? rest).map fun e => ⟨negative, whole, fraction, some e⟩
    else none

def unsigned? (negative : Bool) (cs : List Char) : Option Numeral :=
  match splitDigits cs with
  | ([], _) => none
  | (0 :: _ :: _, _) => none
  | (whole, '.' :: rest) =>
    match splitDigits rest with
    | ([], _) => none
    | (fraction, rest) => withExponent? negative whole fraction rest
  | (whole, rest) => withExponent? negative whole [] rest

def ofChars? : List Char → Option Numeral
  | '-' :: rest => unsigned? true rest
  | cs => unsigned? false cs

/-- Appends digits to a number while it fits in 64 bits, and counts the digits left over. -/
def extend (n : Nat) : List Nat → Nat × Nat
  | [] => (n, 0)
  | d :: ds => if n * 10 + d < Nat.pow 2 64 then extend (n * 10 + d) ds else (n, ds.length + 1)

def powerOfTen? (k : Nat) : Option Binary64 := Binary64.ofQuotient? (Nat.pow 10 k) 1

/-- The number times `10 ^ e`. The powers of ten in binary64 end at 308, so a number is divided by
the greatest of them as often as needed; above it only zero has a product. -/
def scale? (x : Binary64) (e : Int) : Option Binary64 :=
  if e.natAbs ≤ 308 then do
    let power ← powerOfTen? e.natAbs
    if 0 ≤ e then x.mul? power else x.div? power
  else if x.significand = 0 then some x
  else if 0 ≤ e then none
  else do
    let power ← powerOfTen? 308
    let quotient ← x.div? power
    scale? quotient (e + 308)
termination_by e.natAbs

/-- An integer that fits in 64 bits is read exactly, a negative one down to `-2 ^ 63`. Of any other
numeral the leading digits are kept that fit in 64 bits; they and the power of ten are each rounded
to binary64, and so is their product or quotient. -/
def number? (n : Numeral) : Option Number :=
  let (whole, dropped) := extend 0 n.whole
  if n.fraction.isEmpty && n.exponent.isNone && dropped == 0 then
    if !n.negative then some (.integer whole)
    else if whole = 0 ∨ Nat.pow 2 63 < whole then
      (Binary64.ofQuotient? whole 1).map (.binary true)
    else some (.integer (-whole))
  else do
    let (digits, left) := extend whole n.fraction
    let e : Int := n.exponent.getD 0 + dropped - (n.fraction.length - left)
    let significand ← Binary64.ofQuotient? digits 1
    let magnitude ← scale? significand e
    return .binary n.negative magnitude

end Numeral

end ContextQuery
