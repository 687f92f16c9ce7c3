import OffsetCommit.Binary64.Basic

/-!
# Reading doubles

The written form of a double is an optional sign and then either a word, `inf`, `infinity` or
`nan` in any case, or decimal digits. Digits may hold a point, with a digit on at least one
side of it, and may be followed by `e` or `E` and a signed exponent. Nothing else is read: no
blank, no separator, no other base.
-/

namespace OffsetCommit.Binary64

/-- Whether a character is a decimal digit; only the ten ASCII ones are. -/
def isDigit (c : Char) : Bool :=
  '0' ≤ c && c ≤ '9'

/-- The number that a row of decimal digits stands for. -/
def digitsValue (digits : List Char) : Nat :=
  digits.foldl (fun n c => 10 * n + (c.toNat - '0'.toNat)) 0

/-- Takes a sign off; without one the text is positive. -/
def readSign : List Char → Bool × List Char
  | '-' :: rest => (true, rest)
  | '+' :: rest => (false, rest)
  | rest => (false, rest)

/-- Reads what may follow the digits: nothing, or an exponent. -/
def readExponent? : List Char → Option Int
  | [] => some 0
  | c :: rest =>
      let (negative, digits) := readSign rest
      if (c = 'e' ∨ c = 'E') ∧ digits ≠ [] ∧ digits.all isDigit then
        let size : Int := digitsValue digits
        some (if negative then -size else size)
      else none

/-- Reads the digits after the sign. -/
def readDecimal? (negative : Bool) (text : List Char) : Option Binary64 :=
  let whole := text.takeWhile isDigit
  let afterWhole := text.dropWhile isDigit
  let (fraction, rest) :=
    match afterWhole with
    | '.' :: tail => (tail.takeWhile isDigit, tail.dropWhile isDigit)
    | _ => ([], afterWhole)
  if whole = [] ∧ fraction = [] then none
  else
    (readExponent? rest).map fun exponent =>
      ofDecimal negative (digitsValue (whole ++ fraction)) (exponent - fraction.length)

/-- Reads the written form of a double. -/
def ofText? (text : String) : Option Binary64 :=
  let (negative, rest) := readSign text.toList
  let word := rest.map Char.toLower
  if word = "inf".toList ∨ word = "infinity".toList then some (.infinity negative)
  else if word = "nan".toList then some .nan
  else readDecimal? negative rest

end OffsetCommit.Binary64
