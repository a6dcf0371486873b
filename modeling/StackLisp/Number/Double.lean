/-!
# Double-precision numbers as naturals

A finite double is a sign and a **magnitude**, and every magnitude is a natural
number of **units**: the unit is the least positive double, `2 ^ -1074`.  The 63
bits that stand for a magnitude, read as a natural number (its **word**), are in the
order of the magnitudes themselves, so the word after `w` is the next larger double.

`units` says how many units a word stands for.  `nearest` goes the other way: it takes
a quotient of naturals, counted in units, to the word nearest to it, and to the even
word when two are equally near.  All of it is exact arithmetic on naturals.
-/

namespace StackLisp.Double

/-- How many words one binade has: the significand has 52 stored bits. -/
def binade : Nat := Nat.pow 2 52

/-- The word that stands for infinity; smaller words are finite. -/
def infinityWord : Nat := 2047 * binade

/-- A bit pattern of this size and above has the sign bit set. -/
def signBit : Nat := Nat.pow 2 63

/-- The number of units in which a value of one is counted. -/
def unitsPerOne : Nat := Nat.pow 2 1074

/-- The magnitude of a finite word, counted in units.  The first two binades are
spaced one unit apart, and the spacing doubles from each binade to the next. -/
def units (word : Nat) : Nat :=
  if word < binade then word
  else (binade + word % binade) * Nat.pow 2 (word / binade - 1)

/-- The natural number nearest to `num / den`, and the even one of two that are
equally near. -/
def roundQuotient (num den : Nat) : Nat :=
  let floor := num / den
  let twice := 2 * (num % den)
  if twice < den then floor
  else if den < twice then floor + 1
  else floor + floor % 2

/-- The number of low bits that do not fit into a significand of 53 bits. -/
def excessBits (n : Nat) : Nat :=
  Nat.log2 n - 52

/-- **The word nearest to `num / den` units.**  The quotient is rounded to the spacing of
its own binade; a significand that rounds up to the next power of two carries into the
exponent by itself.  What is too large becomes infinity. -/
def nearest (num den : Nat) : Nat :=
  let shift := excessBits (num / den)
  min infinityWord (shift * binade + roundQuotient num (den * Nat.pow 2 shift))

/-- The word of a number's magnitude: its bits without the sign. -/
def word (x : Float) : Nat :=
  x.toBits.toNat % signBit

/-- Is the sign bit set?  Negative zero has it. -/
def isNegative (x : Float) : Bool :=
  signBit ≤ x.toBits.toNat

/-- Is the number neither an infinity nor a NaN? -/
def isFinite (x : Float) : Bool :=
  word x < infinityWord

/-- The number with the given sign and magnitude word. -/
def ofWord (negative : Bool) (word : Nat) : Float :=
  Float.ofBits (UInt64.ofNat (if negative then signBit + word else word))

/-- The number that is no number. -/
def nan : Float := 0.0 / 0.0

/-- Positive infinity. -/
def infinity : Float := ofWord false infinityWord

end StackLisp.Double
