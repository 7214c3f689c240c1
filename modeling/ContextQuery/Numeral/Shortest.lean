import ContextQuery.Numeral.Binary64

namespace ContextQuery

structure Decimal where
  digits : Nat
  exponent : Int
  deriving DecidableEq

namespace Decimal

def width (n : Nat) : Nat := (Nat.toDigits 10 n).length

/-- The least `k` with `num / den < 10 ^ k`, for a positive fraction. -/
def scale (num den : Nat) : Int :=
  if den ≤ num then width (num / den) else 1 - (width ((den - 1) / num) : Int)

def readsBack (x : Binary64) (d : Decimal) : Bool := Binary64.ofDecimal? d.digits d.exponent == some x

/-- The multiple of `10 ^ e` that reads back as `x` and lies nearest to it, an exact tie going to
the even multiple. Only the two neighbours of `x` come into question. -/
def onGrid? (x : Binary64) (e : Int) : Option Decimal :=
  let (num, den) := x.fraction
  let num := num * Nat.pow 10 (-e).toNat
  let den := den * Nat.pow 10 e.toNat
  let low : Decimal := ⟨num / den, e⟩
  let high : Decimal := ⟨num / den + 1, e⟩
  let near : Decimal := ⟨Binary64.roundHalfEven num den, e⟩
  match readsBack x low, readsBack x high with
  | true, true => some near
  | true, false => some low
  | false, true => some high
  | false, false => none

def exact (x : Binary64) : Decimal :=
  if 0 ≤ x.exponent then ⟨x.significand * Nat.pow 2 x.exponent.toNat, 0⟩
  else ⟨x.significand * Nat.pow 5 (-x.exponent).toNat, x.exponent⟩

/-- The fewest digits that read back as the number. Seventeen always suffice. -/
def shortest (x : Binary64) : Decimal :=
  let (num, den) := x.fraction
  let k := scale num den
  ((List.range 17).findSome? fun n : Nat => onGrid? x (k - 1 - n)).getD (exact x)

def trimmed (digits : Nat) : List Char :=
  ((Nat.toDigits 10 digits).reverse.dropWhile (· == '0')).reverse

def withPoint (ds : List Char) (n : Nat) : List Char :=
  let whole := ds.take (n + 1)
  let rest := ds.drop (n + 1)
  whole ++ List.replicate (n + 1 - whole.length) '0' ++ '.' :: (if rest.isEmpty then ['0'] else rest)

/-- Plain notation from the exponent -5 to the exponent 15 of the leading digit, otherwise
scientific notation with a sign in front of the exponent. -/
def text (d : Decimal) : List Char :=
  match trimmed d.digits with
  | [] => ['0', '.', '0']
  | c :: rest =>
    let e := d.exponent + width d.digits - 1
    if 0 ≤ e ∧ e ≤ 15 then withPoint (c :: rest) e.toNat
    else if -5 ≤ e ∧ e < 0 then '0' :: '.' :: List.replicate (-e - 1).toNat '0' ++ c :: rest
    else (if rest.isEmpty then [c] else c :: '.' :: rest) ++
      'e' :: (if 0 ≤ e then '+' else '-') :: Nat.toDigits 10 e.natAbs

end Decimal

def Binary64.text (x : Binary64) : String :=
  String.ofList (if x.significand = 0 then ['0', '.', '0'] else (Decimal.shortest x).text)

example : (Binary64.ofDecimal? 1 (-1)).map Binary64.text = some "0.1" := by decide +kernel
example : (Binary64.ofDecimal? 1 16).map Binary64.text = some "1e+16" := by decide +kernel
example : (Binary64.ofDecimal? 15 (-7)).map Binary64.text = some "1.5e-6" := by decide +kernel
example : (Binary64.ofDecimal? 5 (-324)).map Binary64.text = some "5e-324" := by decide +kernel

end ContextQuery
