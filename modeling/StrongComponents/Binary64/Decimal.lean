import StrongComponents.Binary64.Basic

/-!
# Decimal text of floating-point numbers

`Binary64.shortest` gives the fewest decimal digits that lie nearer to a number than to any other,
and of those the ones nearest to it. `Decimal.render` lays such digits out, positionally or with an
exponent as a `Decimal.Style` says.
-/

set_option autoImplicit false

namespace StrongComponents

/-- Decimal digits, the first of which counts `10 ^ exponent`. -/
structure Decimal where
  digits : List Char
  exponent : Int
deriving DecidableEq

namespace Decimal

/-- The digits of `n` times `10 ^ scale`, without zeros at the end. -/
def ofScaled (n : Nat) (scale : Int) : Decimal :=
  let digits := Nat.toDigits 10 n
  ⟨(digits.reverse.dropWhile (· == '0')).reverse, scale + digits.length - 1⟩

/-- Which exponents are written positionally: those from `least` to `greatest`. -/
structure Style where
  least : Int
  greatest : Int

/-- A point after the digit that counts ones, with zeros put in where digits are missing. -/
def positional (d : Decimal) : List Char :=
  if 0 ≤ d.exponent then
    let whole := d.exponent.toNat + 1
    if d.digits.length ≤ whole then
      d.digits ++ List.replicate (whole - d.digits.length) '0' ++ ".0".toList
    else
      d.digits.take whole ++ '.' :: d.digits.drop whole
  else
    "0.".toList ++ List.replicate (-d.exponent - 1).toNat '0' ++ d.digits

/-- A point after the first digit, if others follow, and the exponent with its sign. -/
def scientific (d : Decimal) : List Char :=
  let fraction := if d.digits.length ≤ 1 then [] else '.' :: d.digits.drop 1
  let sign := if d.exponent < 0 then '-' else '+'
  d.digits.take 1 ++ fraction ++ 'e' :: sign :: Nat.toDigits 10 d.exponent.natAbs

/-- The digits laid out in the given style. -/
def render (style : Style) (d : Decimal) : List Char :=
  if style.least ≤ d.exponent ∧ d.exponent ≤ style.greatest then d.positional else d.scientific

end Decimal

/-- How many digits stand before the point: the `k` with
`10 ^ (k - 1) ≤ num / den < 10 ^ k`, for positive numbers. -/
def wholeDigits (num den : Nat) : Int :=
  if den ≤ num then (Nat.toDigits 10 (num / den)).length
  else
    let below := (den - 1) / num
    if below = 0 then 1 else 1 - (Nat.toDigits 10 below).length

namespace Binary64

/-- The reals that round to a number: those from `low / den` to `high / den`, the ends included iff
`closed`. The number itself is `value / den`. -/
structure Interval where
  low : Nat
  value : Nat
  high : Nat
  den : Nat
  closed : Bool

/-- The interval of a number other than zero. Below a power of two the numbers lie twice as dense,
and a half goes to the even significand. -/
def interval (x : Binary64) : Interval :=
  let denser := x.significand == 0x10000000000000 && minExponent < x.exponent
  let below := if denser then 1 else 2
  let e := x.exponent - 2
  let factor := if 0 ≤ e then Nat.pow 2 e.toNat else 1
  { low := (4 * x.significand - below) * factor
    value := 4 * x.significand * factor
    high := (4 * x.significand + 2) * factor
    den := if 0 ≤ e then 1 else Nat.pow 2 (-e).toNat
    closed := x.significand % 2 == 0 }

namespace Interval

/-- Whether `c / den` lies in the interval. -/
def contains (i : Interval) (c : Nat) : Bool :=
  if i.closed then i.low ≤ c && c ≤ i.high else i.low < c && c < i.high

/-- The interval measured in units of `10 ^ scale`. -/
def rescale (i : Interval) (scale : Int) : Interval :=
  if 0 ≤ scale then { i with den := i.den * Nat.pow 10 scale.toNat }
  else
    let factor := Nat.pow 10 (-scale).toNat
    { i with low := i.low * factor, value := i.value * factor, high := i.high * factor }

/-- The integer nearest to the value among its two neighbours in the interval; a half goes to the
even one. -/
def nearest? (i : Interval) : Option Nat :=
  let down := i.value / i.den
  let candidates := [down, down + 1].filter fun c => i.contains (c * i.den)
  let best := roundQuotient i.value i.den
  if candidates.contains best then some best else candidates.head?

end Interval

/-- The most digits that are ever needed. -/
def maxDigits : Nat := 17

/-- The fewest digits that single the number out, for a number other than zero. -/
def shortest (x : Binary64) : Decimal :=
  let i := x.interval
  let whole := wholeDigits i.value i.den
  let attempt (count : Nat) : Option Decimal :=
    let scale := whole - count
    (i.rescale scale).nearest?.map (Decimal.ofScaled · scale)
  let counts := (List.range maxDigits).map (· + 1)
  (counts.findSome? attempt).getD (Decimal.ofScaled x.significand x.exponent)

/-- The sign and the shortest digits in the given style; a zero is `0.0`. -/
def render (style : Decimal.Style) (x : Binary64) : List Char :=
  let sign := if x.negative then ['-'] else []
  sign ++ if x.isZero then "0.0".toList else x.shortest.render style

end Binary64

end StrongComponents
