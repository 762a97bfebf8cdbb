/-!
# Finite numbers of 64-bit floating point

A number is a sign and a natural number `significand` times a power of two. The significand has at
most 53 bits and the exponent is at least `-1074`; it is `-1074` unless all 53 bits are used. All
arithmetic is on exact fractions, which `ofRatio` rounds once.
-/

set_option autoImplicit false

namespace StrongComponents

/-- The quotient rounded to the nearest integer; a half goes to the even neighbour. -/
def roundQuotient (num den : Nat) : Nat :=
  let q := num / den
  let r := num % den
  if 2 * r < den then q
  else if den < 2 * r then q + 1
  else q + q % 2

/-- The number `± significand * 2 ^ exponent`. -/
structure Binary64 where
  negative : Bool
  significand : Nat
  exponent : Int
deriving DecidableEq

namespace Binary64

/-- The least exponent. -/
def minExponent : Int := -1074

/-- The greatest exponent. -/
def maxExponent : Int := 971

/-- The zero of either sign. -/
def zero (negative : Bool) : Binary64 := ⟨negative, 0, minExponent⟩

/-- Whether the number is one of the two zeros. -/
def isZero (x : Binary64) : Bool := x.significand == 0

/-- Whether the number has no fractional part. -/
def isIntegral (x : Binary64) : Bool :=
  0 ≤ x.exponent || x.significand % Nat.pow 2 (-x.exponent).toNat == 0

/-- The magnitude of the number as numerator and denominator. -/
def ratio (x : Binary64) : Nat × Nat :=
  if 0 ≤ x.exponent then (x.significand * Nat.pow 2 x.exponent.toNat, 1)
  else (x.significand, Nat.pow 2 (-x.exponent).toNat)

/-- The exponent of the greatest power of two that is at most `num / den`, for positive numbers. -/
def floorLog2 (num den : Nat) : Int :=
  let guess : Int := (num.log2 : Int) - den.log2
  if 0 ≤ guess then
    if num < den * Nat.pow 2 guess.toNat then guess - 1 else guess
  else
    if num * Nat.pow 2 (-guess).toNat < den then guess - 1 else guess

/-- The fraction `num / (den * 2 ^ e)`. -/
def scaleDown (num den : Nat) (e : Int) : Nat × Nat :=
  if 0 ≤ e then (num, den * Nat.pow 2 e.toNat) else (num * Nat.pow 2 (-e).toNat, den)

/-- The number nearest to `± num / den`; a half goes to the even significand. Nothing when that is
past the greatest number. -/
def ofRatio (negative : Bool) (num den : Nat) : Option Binary64 :=
  if num = 0 then some (zero negative)
  else
    let e := max minExponent (floorLog2 num den - 52)
    let (n, d) := scaleDown num den e
    let m := roundQuotient n d
    let (m, e) := if m = 0x20000000000000 then (0x10000000000000, e + 1) else (m, e)
    if maxExponent < e then none else some ⟨negative, m, e⟩

/-- The rounded product. -/
def mul (x y : Binary64) : Option Binary64 :=
  let (n, d) := x.ratio
  let (n', d') := y.ratio
  ofRatio (x.negative != y.negative) (n * n') (d * d')

/-- The rounded quotient by a number that is not zero. -/
def div (x y : Binary64) : Option Binary64 :=
  let (n, d) := x.ratio
  let (n', d') := y.ratio
  ofRatio (x.negative != y.negative) (n * d') (d * n')

/-- The number nearest to `10 ^ k`. -/
def powerOfTen (k : Nat) : Option Binary64 := ofRatio false (Nat.pow 10 k) 1

/-- The exponent of the greatest power of ten. -/
def maxPowerOfTen : Nat := 308

/-- Multiplies by the power of ten nearest to `10 ^ k`. -/
def mulPowerOfTen (x : Binary64) (k : Nat) : Option Binary64 := do x.mul (← powerOfTen k)

/-- Divides by the power of ten nearest to `10 ^ k`. -/
def divPowerOfTen (x : Binary64) (k : Nat) : Option Binary64 := do x.div (← powerOfTen k)

/-- Multiplies by `10 ^ k`, rounding after each factor. A factor is a single power of ten for
`-308 ≤ k ≤ 308`; further down the number is divided by `10 ^ 308` as often as that takes. -/
def shiftDecimal (x : Binary64) (k : Int) : Option Binary64 :=
  if x.isZero then some x
  else if maxPowerOfTen < k then none
  else if 0 ≤ k then x.mulPowerOfTen k.toNat
  else if -maxPowerOfTen ≤ k then x.divPowerOfTen (-k).toNat
  else (x.divPowerOfTen maxPowerOfTen).bind fun y => y.shiftDecimal (k + maxPowerOfTen)
termination_by (-k).toNat
decreasing_by
  have : (maxPowerOfTen : Int) = 308 := rfl
  omega

/-- The number read from `± digits * 10 ^ exponent`: the digits are rounded first, then shifted. -/
def ofDecimal (negative : Bool) (digits : Nat) (exponent : Int) : Option Binary64 := do
  (← ofRatio negative digits 1).shiftDecimal exponent

end Binary64

end StrongComponents
