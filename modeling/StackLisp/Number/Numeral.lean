import StackLisp.Number.Shortest
import StackLisp.Text.Digit

/-!
# Numerals

A **numeral** is the text of a number in a program: an optional sign, digits with at
most one point among them, and an optional exponent.  `read?` accepts exactly the
numerals and gives the double nearest to what they denote.  `write` gives the
shortest numeral of a number, without exponent, and `inspect` the form used when a
value is shown by its constructors.
-/

namespace StackLisp.Numeral

open StackLisp.Text

/-! ## Reading -/

/-- Splits off a sign; `true` stands for minus. -/
def splitSign : List Char → Bool × List Char
  | '-' :: cs => (true, cs)
  | '+' :: cs => (false, cs)
  | cs => (false, cs)

/-- The power of ten after the digits of a numeral: nothing at all, or a mark, an
optional sign and at least one digit. -/
def readExponent? : List Char → Option Int
  | [] => some 0
  | mark :: cs =>
    let (negative, ds) := splitSign cs
    if (mark = 'e' ∨ mark = 'E') ∧ ds ≠ [] ∧ ds.all isDigit then
      some (if negative then -(digitsValue ds : Int) else digitsValue ds)
    else none

/-- The digits of a numeral before and after its point, and what follows them. -/
def splitDigits (cs : List Char) : List Char × List Char × List Char :=
  let whole := cs.takeWhile isDigit
  match cs.dropWhile isDigit with
  | '.' :: rest => (whole, rest.takeWhile isDigit, rest.dropWhile isDigit)
  | rest => (whole, [], rest)

/-- The sign and the decimal that a numeral denotes. -/
def decimal? (cs : List Char) : Option (Bool × Decimal) :=
  let (negative, cs) := splitSign cs
  let (whole, fraction, rest) := splitDigits cs
  if whole = [] ∧ fraction = [] then none
  else
    (readExponent? rest).map fun e =>
      (negative, ⟨digitsValue (whole ++ fraction), e - fraction.length⟩)

/-- **The number that a text denotes**, if the whole of it is a numeral. -/
def read? (s : String) : Option Float :=
  (decimal? s.toList).map fun (negative, d) => Double.ofWord negative d.nearestWord

/-! ## Writing -/

/-- The minus sign of a negative number, negative zero included. -/
def signText (x : Float) : String :=
  if Double.isNegative x then "-" else ""

/-- **The shortest numeral that reads back**, in plain notation.  An integer has no
point, and what is not finite has a name instead. -/
def write (x : Float) : String :=
  if x.isNaN then "NaN"
  else if Double.isFinite x then signText x ++ (Decimal.shortest (Double.word x)).plain
  else signText x ++ "inf"

/-- The shortest decimal in the notation that a constructor view uses: plain from
`10 ^ -4` up to `10 ^ 16`, always with a point, and scientific outside. -/
def inspectDecimal (d : Decimal) : String :=
  if d.digits = 0 then "0.0"
  else if -4 < d.point ∧ d.point ≤ 16 then
    if 0 ≤ d.exponent then d.plain ++ ".0" else d.plain
  else d.scientific

/-- The numeral of a number in a constructor view. -/
def inspect (x : Float) : String :=
  if x.isNaN then "nan"
  else if Double.isFinite x then signText x ++ inspectDecimal (Decimal.shortest (Double.word x))
  else signText x ++ "inf"

end StackLisp.Numeral
