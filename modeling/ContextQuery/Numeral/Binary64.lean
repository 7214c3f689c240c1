namespace ContextQuery

/-- The number `significand * 2 ^ exponent`. The significand is below `2 ^ 53` and the exponent at
least `-1074`; a significand below `2 ^ 52` goes with that least exponent only. -/
structure Binary64 where
  significand : Nat
  exponent : Int
  deriving DecidableEq

namespace Binary64

def zero : Binary64 := ⟨0, -1074⟩

def roundHalfEven (num den : Nat) : Nat :=
  let q := num / den
  let r := num % den
  if 2 * r < den then q else if den < 2 * r then q + 1 else q + q % 2

/-- The number of the format nearest to `num / den`. The first guess at the exponent puts the scaled
quotient between `2 ^ 52` and `2 ^ 54`, so it is right or one too small. -/
def ofQuotient? (num den : Nat) : Option Binary64 :=
  if num = 0 then some zero else
    let guess : Int := (num.log2 : Int) - den.log2 - 53
    let e : Int :=
      if num * Nat.pow 2 (-guess).toNat < den * Nat.pow 2 guess.toNat * Nat.pow 2 53 then guess
      else guess + 1
    let e := max e (-1074)
    let m := roundHalfEven (num * Nat.pow 2 (-e).toNat) (den * Nat.pow 2 e.toNat)
    let x : Binary64 := if m = Nat.pow 2 53 then ⟨Nat.pow 2 52, e + 1⟩ else ⟨m, e⟩
    if x.exponent ≤ 971 then some x else none

def ofScaled? (num den : Nat) (e : Int) : Option Binary64 :=
  ofQuotient? (num * Nat.pow 2 e.toNat) (den * Nat.pow 2 (-e).toNat)

def ofDecimal? (digits : Nat) (e : Int) : Option Binary64 :=
  ofQuotient? (digits * Nat.pow 10 e.toNat) (Nat.pow 10 (-e).toNat)

def mul? (x y : Binary64) : Option Binary64 :=
  ofScaled? (x.significand * y.significand) 1 (x.exponent + y.exponent)

def div? (x y : Binary64) : Option Binary64 :=
  ofScaled? x.significand y.significand (x.exponent - y.exponent)

def fraction (x : Binary64) : Nat × Nat :=
  (x.significand * Nat.pow 2 x.exponent.toNat, Nat.pow 2 (-x.exponent).toNat)

example : ofDecimal? 1 0 = some ⟨2 ^ 52, -52⟩ := by decide +kernel
example : ofDecimal? 5 (-324) = some ⟨1, -1074⟩ := by decide +kernel
example : ofDecimal? 9007199254740993 0 = some ⟨2 ^ 52, 1⟩ := by decide +kernel
example : ofDecimal? 18 307 = none := by decide +kernel

end Binary64

end ContextQuery
