import StackLisp.Number.Double

/-!
# Decimals

A **decimal** is a natural number of digits and a power of ten.  Reading one as a
double takes the nearest double; writing one as text is either **plain**, with a point
and no exponent, or **scientific**, with the point after the first digit.
-/

namespace StackLisp

/-- The number `digits * 10 ^ exponent`. -/
structure Decimal where
  /-- The significant digits, as one natural number. -/
  digits : Nat
  /-- The power of ten that the digits are multiplied by. -/
  exponent : Int
  deriving DecidableEq, Repr

namespace Decimal

/-- The digits as text. -/
def digitChars (d : Decimal) : List Char :=
  Nat.toDigits 10 d.digits

/-- The position of the point, counted from the first digit: the decimal is below
`10 ^ point`, and at least a tenth of that if it has no leading zero. -/
def point (d : Decimal) : Int :=
  d.digitChars.length + d.exponent

/-! ## The nearest double -/

/-- A decimal at or above `10 ^ 309` is above every finite double. -/
def largestPoint : Int := 310

/-- A decimal below `10 ^ -330` is below half of the least positive double. -/
def smallestPoint : Int := -330

/-- **The word of the double nearest to a decimal**, the even one of two.  A decimal far
outside the range of the doubles is settled by the position of its point alone, so
that a huge exponent costs nothing. -/
def nearestWord (d : Decimal) : Nat :=
  if d.digits = 0 then 0
  else if largestPoint < d.point then Double.infinityWord
  else if d.point < smallestPoint then 0
  else if 0 ≤ d.exponent then
    Double.nearest (d.digits * Nat.pow 10 d.exponent.toNat * Double.unitsPerOne) 1
  else
    Double.nearest (d.digits * Double.unitsPerOne) (Nat.pow 10 (-d.exponent).toNat)

/-! ## Text -/

/-- The decimal without trailing zeros among its digits.  `fuel` bounds how many are
removed. -/
def trimZeros : Nat → Decimal → Decimal
  | 0, d => d
  | fuel + 1, d =>
    if d.digits % 10 = 0 ∧ d.digits ≠ 0 then trimZeros fuel ⟨d.digits / 10, d.exponent + 1⟩ else d

/-- The same number, written with the fewest digits. -/
def normalize (d : Decimal) : Decimal :=
  trimZeros d.digitChars.length d

/-- **Plain notation**: digits with a point among them, zeros filled in where the point
lies outside the digits, and no point at all in an integer. -/
def plain (d : Decimal) : String :=
  let cs := d.digitChars
  if 0 ≤ d.exponent then
    String.ofList (cs ++ List.replicate d.exponent.toNat '0')
  else
    let places := (-d.exponent).toNat
    if places < cs.length then
      String.ofList (cs.take (cs.length - places) ++ '.' :: cs.drop (cs.length - places))
    else
      String.ofList ('0' :: '.' :: (List.replicate (places - cs.length) '0' ++ cs))

/-- **Scientific notation**: one digit before the point, the others after it, and the
power of ten with its sign and at least two digits. -/
def scientific (d : Decimal) : String :=
  let power := d.point - 1
  let size := Nat.toDigits 10 power.natAbs
  let exponent :=
    (if power < 0 then '-' else '+') :: (if size.length < 2 then '0' :: size else size)
  match d.digitChars with
  | [] => ""
  | [c] => String.ofList (c :: 'e' :: exponent)
  | c :: cs => String.ofList (c :: '.' :: cs ++ 'e' :: exponent)

end Decimal

end StackLisp
