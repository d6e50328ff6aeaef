/-
  Notebook.Json.Shortest — the fewest decimal digits that read back as the same double.

  The reals that round to a double form an interval around it; its ends belong to it when the
  significand is even.  A decimal of `n` digits lies on a grid of powers of ten, and if any grid
  point is in the interval then so is one of the two neighbours of the double on that grid.  So the
  first digit count with such a neighbour is the least one, and the nearer neighbour is taken.
-/
import Notebook.Json.Double

namespace Notebook.Double

/-! ## §1. The interval of a double, in quarters of its last place. -/

/-- Lower end, value and upper end of the rounding interval, in units of `2 ^ (exponent - 2)`.
Below a power of two the gap to the next smaller double is half as wide. -/
def interval (d : Double) : Nat × Nat × Nat :=
  let value := 4 * d.significand
  let narrow := d.significand == Nat.pow 2 (precision - 1) && decide (minExponent < d.exponent)
  (if narrow then value - 1 else value - 2, value, value + 2)

/-- `units * 2 ^ (exponent - 2)` as a fraction over a power of ten `10 ^ power`:
the pair `(num, den)` with `num / den` counting steps of `10 ^ power`. -/
def stepsOf (units : Nat) (exponent power : Int) : Nat × Nat :=
  let binary := exponent - 2
  let num := units * Nat.pow 2 binary.toNat * Nat.pow 10 (-power).toNat
  let den := Nat.pow 2 (-binary).toNat * Nat.pow 10 power.toNat
  (num, den)

/-! ## §2. Digits. -/

/-- The decimal digits of a number, most significant first; zero has one digit. -/
def digits (n : Nat) : List Char := Nat.toDigits 10 n

/-- The exponent of the first decimal digit of the magnitude: `10 ^ k ≤ d < 10 ^ (k + 1)`. -/
def leadingPower (d : Double) : Int :=
  let shift : Nat := 400
  let (num, den) := d.ratio
  ((digits (num * Nat.pow 10 shift / den)).length : Int) - 1 - shift

/-- The neighbour of the magnitude on the grid of `10 ^ power` that rounds back to it, if there is
one; of two the nearer, of two equally near the even one. -/
def neighbour? (d : Double) (power : Int) : Option Nat :=
  let (low, value, high) := d.interval
  let (lowNum, den) := stepsOf low d.exponent power
  let (num, _) := stepsOf value d.exponent power
  let (highNum, _) := stepsOf high d.exponent power
  let even := d.significand % 2 == 0
  let inside (steps : Nat) : Bool :=
    if even then decide (lowNum ≤ steps * den) && decide (steps * den ≤ highNum)
    else decide (lowNum < steps * den) && decide (steps * den < highNum)
  let below := num / den
  let above := below + 1
  match inside below, inside above with
  | false, false => none
  | true, false => some below
  | false, true => some above
  | true, true =>
    let toBelow := num - below * den
    let toAbove := above * den - num
    if toBelow < toAbove then some below
    else if toAbove < toBelow then some above
    else if below % 2 == 0 then some below else some above

/-- Tries digit counts from `count` up, at most `tries` of them. -/
def shortestFrom (d : Double) (leading : Int) : (tries count : Nat) → Nat × Int
  | 0, count => (0, leading + 1 - count)
  | tries + 1, count =>
    let power := leading + 1 - count
    match d.neighbour? power with
    | some steps => (steps, power)
    | none => shortestFrom d leading tries (count + 1)

/-- The shortest decimal of a nonzero magnitude: `n * 10 ^ power` with as few digits in `n` as
possible.  Seventeen digits always suffice. -/
def shortest (d : Double) : Nat × Int := shortestFrom d d.leadingPower 17 1

/-! ## §3. The written form. -/

/-- How doubles are laid out: positional notation from `10 ^ lowest` up to, but not including,
`10 ^ highest`, with a fraction of at least one digit; outside, one digit before the point and an
exponent that always has a sign. -/
structure Layout where
  lowest : Int
  highest : Int

/-- Positional from 0.00001 up to 10^16. -/
def layout : Layout := ⟨-5, 16⟩

/-- The exponent with its sign. -/
def exponentText (exponent : Int) : List Char :=
  match exponent with
  | .ofNat e => '+' :: digits e
  | .negSucc e => '-' :: digits (e + 1)

/-- Lays out the digits `ds`, the last of which counts steps of `10 ^ power`. -/
def layOut (style : Layout) (ds : List Char) (power : Int) : List Char :=
  let leading := power + ds.length - 1
  if style.lowest ≤ leading ∧ leading < style.highest then
    if 0 ≤ power then ds ++ List.replicate power.toNat '0' ++ ['.', '0']
    else if 0 ≤ leading then
      let whole := leading.toNat + 1
      ds.take whole ++ '.' :: ds.drop whole
    else '0' :: '.' :: List.replicate (-leading - 1).toNat '0' ++ ds
  else
    match ds with
    | [] => []
    | [d] => d :: 'e' :: exponentText leading
    | d :: rest => d :: '.' :: rest ++ 'e' :: exponentText leading

/-- Drops the zeros at the end, each of which raises the power by one. -/
def trimZeros (ds : List Char) (power : Int) : List Char × Int :=
  let kept := (ds.reverse.dropWhile (· == '0')).reverse
  (kept, power + (ds.length - kept.length))

/-- The written form of a double: its shortest digits in the layout above. -/
def text (d : Double) : String :=
  let magnitude :=
    if d.isZero then ['0', '.', '0'] else
    let (n, power) := d.shortest
    let (ds, power) := trimZeros (digits n) power
    layOut layout ds power
  String.ofList (if d.negative then '-' :: magnitude else magnitude)

end Notebook.Double
