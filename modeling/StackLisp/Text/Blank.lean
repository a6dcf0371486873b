/-!
# Blank characters

Between two tokens a program may have **blanks**: the characters that Unicode
treats as white space.  `isBlank` is the table of them, and `strip` removes them
from both ends of a text.
-/

namespace StackLisp.Text

/-- The blank characters, as inclusive ranges of code points in ascending order. -/
def blankRanges : List (Nat × Nat) :=
  [(0x09, 0x0D), (0x1C, 0x20), (0x85, 0x85), (0xA0, 0xA0), (0x1680, 0x1680),
   (0x2000, 0x200A), (0x2028, 0x2029), (0x202F, 0x202F), (0x205F, 0x205F), (0x3000, 0x3000)]

/-- A blank separates tokens and stands for nothing itself. -/
def isBlank (c : Char) : Bool :=
  blankRanges.any fun r => r.1 ≤ c.toNat && c.toNat ≤ r.2

/-- The characters of `cs` without those at either end that satisfy `p`. -/
def trimList (p : Char → Bool) (cs : List Char) : List Char :=
  ((cs.dropWhile p).reverse.dropWhile p).reverse

/-- A text without the blanks at its ends. -/
def strip (s : String) : String :=
  String.ofList (trimList isBlank s.toList)

end StackLisp.Text
