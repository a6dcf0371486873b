import StackLisp.Text.Blank
import StackLisp.Text.Digit

/-!
# Integers written as text

An integer is an optional sign and a row of decimal digits, in which single
underscores may stand between two digits.  Blanks around it do not count, except
the four information separators, which are refused.  So is a row of more digits than
`digitLimit`, whatever number it would denote.
-/

namespace StackLisp.Text

/-- The blanks that may surround an integer. -/
def isMargin (c : Char) : Bool :=
  isBlank c && !(0x1C ≤ c.toNat && c.toNat ≤ 0x1F)

/-- The number denoted by digits with single underscores between them.  `n` is the
number read so far and `gap` says that an underscore may not come next. -/
def readDigits? (n : Nat) (gap : Bool) : List Char → Option Nat
  | [] => if gap then none else some n
  | c :: cs =>
    if c = '_' then
      if gap then none else readDigits? n true cs
    else
      match digitValue? c with
      | some d => readDigits? (10 * n + d) false cs
      | none => none

/-- The greatest number of digits that an integer may be written with.  Leading zeros count. -/
def digitLimit : Nat := 4300

/-- The number that an integer without its sign denotes. -/
def readMagnitude? (cs : List Char) : Option Nat :=
  if digitLimit < cs.countP (· ≠ '_') then none else readDigits? 0 true cs

/-- The integer that a text denotes, if it denotes one. -/
def readInt? (s : String) : Option Int :=
  match trimList isMargin s.toList with
  | '-' :: cs => (readMagnitude? cs).map fun n => -(n : Int)
  | '+' :: cs => (readMagnitude? cs).map fun n => (n : Int)
  | cs => (readMagnitude? cs).map fun n => (n : Int)

end StackLisp.Text
