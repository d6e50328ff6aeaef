/-
  Notebook.Json.Double — binary floating-point numbers of 64 bits, as exact integers.

  A finite double is a sign, a significand below 2^53 and a power of two.  Everything here is exact
  arithmetic on natural numbers: `Double.nearest` rounds a quotient to the nearest double, an exact
  half going to the even significand, and the reading of a decimal is built from that rounding
  alone.  Infinities and NaN are not numbers of this type; a result too large for it is refused.
-/

namespace Notebook

/-! ## §1. The numbers. -/

/-- A finite double: `significand * 2 ^ exponent`, negated when `negative` is set. -/
structure Double where
  negative : Bool
  significand : Nat
  exponent : Int
deriving DecidableEq, Repr, Inhabited

namespace Double

/-- The bits of a significand. -/
def precision : Nat := 53

/-- The exponent of the smallest doubles. -/
def minExponent : Int := -1074

/-- The exponent of the largest doubles. -/
def maxExponent : Int := 971

/-- Zero, without a sign. -/
def zero : Double := ⟨false, 0, minExponent⟩

/-- Whether the number is zero of either sign. -/
def isZero (d : Double) : Bool := d.significand == 0

/-- The same magnitude with the sign `negative`. -/
def withSign (d : Double) (negative : Bool) : Double := { d with negative }

/-- The equality of numbers: zeros of both signs are one number. -/
def same (a b : Double) : Bool := a == b || (a.isZero && b.isZero)

/-! ## §2. Rounding. -/

/-- The quotient rounded to the nearest integer, a half to the even one. -/
def divideToEven (num den : Nat) : Nat :=
  let floor := num / den
  let rest := num % den
  if 2 * rest < den then floor
  else if den < 2 * rest then floor + 1
  else floor + floor % 2

/-- `num / den`, divided by `2 ^ exponent` and rounded to an integer. -/
def scaledQuotient (num den : Nat) (exponent : Int) : Nat :=
  match exponent with
  | .ofNat e => divideToEven num (den * Nat.pow 2 e)
  | .negSucc e => divideToEven (num * Nat.pow 2 (e + 1)) den

/-- The exponent at which `num / den` has a significand of 53 bits, but never below the least. -/
def fittingExponent (num den : Nat) : Int :=
  let guess : Int := (num.log2 : Int) - den.log2 - precision
  let low : Bool := match guess with
    | .ofNat e => num < Nat.pow 2 precision * (den * Nat.pow 2 e)
    | .negSucc e => num * Nat.pow 2 (e + 1) < Nat.pow 2 precision * den
  max (if low then guess else guess + 1) minExponent

/-- The double nearest to `num / den`; none when it is beyond the largest one. -/
def nearest (num den : Nat) : Option Double :=
  if num = 0 then some zero else
  let exponent := fittingExponent num den
  let significand := scaledQuotient num den exponent
  let (significand, exponent) :=
    if significand = Nat.pow 2 precision then (Nat.pow 2 (precision - 1), exponent + 1)
    else (significand, exponent)
  if maxExponent < exponent then none else some ⟨false, significand, exponent⟩

/-- Numerator and denominator of the magnitude. -/
def ratio (d : Double) : Nat × Nat :=
  match d.exponent with
  | .ofNat e => (d.significand * Nat.pow 2 e, 1)
  | .negSucc e => (d.significand, Nat.pow 2 (e + 1))

/-- The product of two magnitudes, rounded once. -/
def mul (a b : Double) : Option Double :=
  nearest (a.ratio.1 * b.ratio.1) (a.ratio.2 * b.ratio.2)

/-- The quotient of two magnitudes, rounded once; the divisor is not zero. -/
def div (a b : Double) : Option Double :=
  nearest (a.ratio.1 * b.ratio.2) (a.ratio.2 * b.ratio.1)

/-! ## §3. Reading decimals. -/

/-- The double nearest to `10 ^ power`. -/
def powerOfTen (power : Nat) : Option Double := nearest (Nat.pow 10 power) 1

/-- The largest power of ten that is a double. -/
def maxPowerOfTen : Nat := 308

/-- Divides by the largest power of ten, rounding, up to `steps` times; zero stays zero. -/
def divSteps (d : Double) : (steps : Nat) → Option Double
  | 0 => some d
  | steps + 1 =>
    if d.isZero then some d
    else ((powerOfTen maxPowerOfTen).bind (div d ·)).bind (divSteps · steps)

/-- Divides by `10 ^ power` in rounded steps: one step when the power itself is a double, and
otherwise divisions by the largest power until it is. -/
def divPowerOfTen (d : Double) (power : Nat) : Option Double :=
  let steps := (power - 1) / maxPowerOfTen
  (d.divSteps steps).bind fun smaller =>
    (powerOfTen (power - steps * maxPowerOfTen)).bind (div smaller ·)

/-- Multiplies by `10 ^ power`; none when the power or the product is beyond the largest double. -/
def mulPowerOfTen (d : Double) (power : Nat) : Option Double :=
  if d.isZero then some d
  else if power ≤ maxPowerOfTen then (powerOfTen power).bind (mul d ·)
  else none

/-- Multiplies by `10 ^ exponent`, in rounded steps. -/
def scale (d : Double) : (exponent : Int) → Option Double
  | .ofNat power => mulPowerOfTen d power
  | .negSucc power => divPowerOfTen d (power + 1)

/-- Reads `significand * 10 ^ exponent`: the significand is rounded first, the scaled product once
more.  None when the result is beyond the largest double. -/
def ofDecimal (negative : Bool) (significand : Nat) (exponent : Int) : Option Double :=
  ((nearest significand 1).bind (scale · exponent)).map (withSign · negative)

end Double

end Notebook
