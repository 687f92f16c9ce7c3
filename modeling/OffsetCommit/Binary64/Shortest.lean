import OffsetCommit.Binary64.Basic

/-!
# Writing doubles

A double is written with the fewest digits that are read back as the same double; of two such
decimals the nearer one is taken, and of two equally near ones the upper. The digits are always
written out in full, without an exponent, and without a point when the number is whole.

For a given number of digits the candidates are the two neighbours of the value on the decimal
grid. If any point of the grid is read back as the double, then one of these two is, because
the decimals that are read back as the double form an interval around it.
-/

namespace OffsetCommit.Binary64

/-- The decimals that are read back as one double: those between two fractions with a common
denominator, the bounds themselves included when `closed`. -/
structure Interval where
  /-- The numerator of the lower bound. -/
  low : Nat
  /-- The numerator of the value itself. -/
  middle : Nat
  /-- The numerator of the upper bound. -/
  high : Nat
  /-- The common denominator. -/
  den : Nat
  /-- Whether the bounds are read back as the double as well. -/
  closed : Bool

namespace Interval

/-- The interval of a positive double. The gap below a power of two is half as wide as the one
above it, except at the least exponent; the bounds belong to an even significand. -/
def ofFinite (significand : Nat) (exponent : Int) : Interval :=
  let narrow := significand = twoTo 52 ∧ -1074 < exponent
  let up := twoTo (exponent - 2).toNat
  { low := (4 * significand - if narrow then 1 else 2) * up
    middle := 4 * significand * up
    high := (4 * significand + 2) * up
    den := twoTo (2 - exponent).toNat
    closed := significand % 2 = 0 }

/-- Whether the decimal `digits * 10 ^ power` is read back as the double. -/
def contains (i : Interval) (digits : Nat) (power : Int) : Bool :=
  let here := digits * tenTo power.toNat * i.den
  let unit := tenTo (-power).toNat
  if i.closed then i.low * unit ≤ here && here ≤ i.high * unit
  else i.low * unit < here && here < i.high * unit

/-- The greatest point of the grid of step `10 ^ power` that is not above the value. -/
def floor (i : Interval) (power : Int) : Nat :=
  i.middle * tenTo (-power).toNat / (i.den * tenTo power.toNat)

/-- Whether the value is at least half a step above a point of the grid. -/
def isUpperHalf (i : Interval) (digits : Nat) (power : Int) : Bool :=
  (2 * digits + 1) * tenTo power.toNat * i.den ≤ 2 * i.middle * tenTo (-power).toNat

/-- The decimal to write on a given grid, if one of the two neighbours is read back. -/
def onGrid? (i : Interval) (power : Int) : Option Nat :=
  let lower := i.floor power
  match i.contains lower power, i.contains (lower + 1) power with
  | true, true => some (if i.isUpperHalf lower power then lower + 1 else lower)
  | true, false => some lower
  | false, true => some (lower + 1)
  | false, false => none

/-- The power of ten of the value's first digit. -/
def firstPower (i : Interval) : Int :=
  if i.den ≤ i.middle then (Nat.toDigits 10 (i.middle / i.den)).length - 1
  else -(Nat.toDigits 10 (i.den / i.middle)).length

/-- The decimal of fewest digits that is read back, with its power of ten. Seventeen digits
always suffice. -/
def shortest (i : Interval) : Nat × Int :=
  let grids := (List.range 17).map fun (more : Nat) => i.firstPower - (more : Int)
  (grids.findSome? fun power => (i.onGrid? power).map (·, power)).getD
    (i.floor (i.firstPower - 17), i.firstPower - 17)

end Interval

/-- Writes `digits * 10 ^ power` in full. -/
def positional (digits : Nat) (power : Int) : String :=
  if 0 ≤ power then toString (digits * tenTo power.toNat)
  else
    let places := (-power).toNat
    let fraction := (toString (digits % tenTo places)).toList
    let padded := List.replicate (places - fraction.length) '0' ++ fraction
    let trimmed := (padded.reverse.dropWhile (· = '0')).reverse
    let whole := toString (digits / tenTo places)
    if trimmed.isEmpty then whole else whole ++ "." ++ String.ofList trimmed

/-- The written form of a double. -/
def text : Binary64 → String
  | nan => "NaN"
  | infinity negative => if negative then "-inf" else "inf"
  | finite negative significand exponent =>
      let size :=
        if significand = 0 then "0"
        else
          let (digits, power) := (Interval.ofFinite significand exponent).shortest
          positional digits power
      if negative then "-" ++ size else size

end OffsetCommit.Binary64
