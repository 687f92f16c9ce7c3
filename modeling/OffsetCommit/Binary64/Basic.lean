/-!
# Doubles

The numbers of the IEEE 754 format with 64 bits, each kept as the exact rational that it stands
for: a sign, a significand and an exponent of two. Every operation is exact integer arithmetic;
the one place where a value is rounded is `Binary64.ofFraction`.

The library compares doubles with rationals and reads and writes them. It does not calculate
with them.
-/

namespace OffsetCommit

/-- A double. The same number may have several significands; they compare alike. -/
inductive Binary64 where
  /-- Not a number: it compares with nothing. -/
  | nan
  /-- One of the two infinities. -/
  | infinity (negative : Bool)
  /-- The number `significand * 2 ^ exponent`, below zero when `negative`. -/
  | finite (negative : Bool) (significand : Nat) (exponent : Int)
deriving DecidableEq, Inhabited

namespace Binary64

/-- Zero with a plus sign. -/
def zero : Binary64 := .finite false 0 0

/-! ## Rounding -/

/-- A power of two. -/
def twoTo (n : Nat) : Nat := Nat.pow 2 n

/-- A power of ten. -/
def tenTo (n : Nat) : Nat := Nat.pow 10 n

/-- The quotient rounded to the nearest integer; a tie goes to the even neighbour. -/
def roundDiv (num den : Nat) : Nat :=
  let quotient := num / den
  let rest := num % den
  if 2 * rest < den then quotient
  else if den < 2 * rest then quotient + 1
  else quotient + quotient % 2

/-- The fraction `num / den` as multiples of `2 ^ exponent`, before the division is done. -/
def scaled (num den : Nat) (exponent : Int) : Nat × Nat :=
  (num * twoTo (-exponent).toNat, den * twoTo exponent.toNat)

/-- The exponent at which `num / den` has a significand of 53 bits, or the least exponent of
the format when it is so small that fewer bits are left. -/
def exponentFor (num den : Nat) : Int :=
  let guess : Int := (num.log2 : Int) - den.log2 - 53
  let (a, b) := scaled num den guess
  max (if a / b < twoTo 53 then guess else guess + 1) (-1074)

/-- The double nearest to `num / den`; a tie goes to the even significand. What is rounded to
`2 ^ 1024` or more is beyond the greatest double and becomes infinite. -/
def ofFraction (negative : Bool) (num den : Nat) : Binary64 :=
  let exponent := exponentFor num den
  let (a, b) := scaled num den exponent
  let significand := roundDiv a b
  if twoTo 1024 ≤ significand * twoTo exponent.toNat then .infinity negative
  else .finite negative significand exponent

/-- The double nearest to a natural number. -/
def ofNat (n : Nat) : Binary64 :=
  ofFraction false n 1

/-- The double nearest to `digits * 10 ^ exponent`. A decimal whose order of magnitude already
puts it beyond every finite double, or below half of the least positive one, is not expanded. -/
def ofDecimal (negative : Bool) (digits : Nat) (exponent : Int) : Binary64 :=
  if digits = 0 then .finite negative 0 0
  else if 400 < exponent then .infinity negative
  else if exponent + digits.log2 < -400 then .finite negative 0 0
  else ofFraction negative (digits * tenTo exponent.toNat) (tenTo (-exponent).toNat)

/-- The double with the given bits: a sign, eleven bits of exponent, 52 bits of fraction. -/
def ofBits (bits : UInt64) : Binary64 :=
  let word : Nat := bits.toNat
  let negative := word.testBit 63
  let field : Nat := word / twoTo 52 % twoTo 11
  let fraction : Nat := word % twoTo 52
  if field = 2047 then
    if fraction = 0 then .infinity negative else .nan
  else if field = 0 then .finite negative fraction (-1074)
  else .finite negative (twoTo 52 + fraction) ((field : Int) - 1075)

/-! ## Comparison with rationals -/

/-- The number that a sign, a significand and an exponent of two stand for. -/
def value (negative : Bool) (significand : Nat) (exponent : Int) : Rat :=
  let size := mkRat (significand * twoTo exponent.toNat) (twoTo (-exponent).toNat)
  if negative then -size else size

/-- The exact value of a finite double; the others have none. -/
def toRat? : Binary64 → Option Rat
  | nan => none
  | infinity _ => none
  | finite negative significand exponent => some (value negative significand exponent)

/-- How the double stands to a rational. The infinities lie outside all of them, and what is
not a number has no place. -/
def compare? (x : Binary64) (q : Rat) : Option Ordering :=
  match x with
  | nan => none
  | infinity negative => some (if negative then .lt else .gt)
  | finite negative significand exponent =>
      let v := value negative significand exponent
      some (if v < q then .lt else if v = q then .eq else .gt)

/-- Whether `q` is less than the double. -/
def above (q : Rat) (x : Binary64) : Bool :=
  x.compare? q == some .gt

/-- Whether the double is at most `q`. -/
def atMost (q : Rat) (x : Binary64) : Bool :=
  x.compare? q == some .lt || x.compare? q == some .eq

/-- Whether the double is at least `q`. -/
def atLeast (q : Rat) (x : Binary64) : Bool :=
  x.compare? q == some .gt || x.compare? q == some .eq

end Binary64

end OffsetCommit
