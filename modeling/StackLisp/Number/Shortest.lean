import StackLisp.Number.Decimal

/-!
# The shortest decimal of a double

Many decimals read back as the same double.  The **shortest** is the one with the
fewest digits, and of those the one nearest to the double; an exact tie goes to the
even digit.

The multiples of `10 ^ e` form a grid, and fewer digits mean a coarser grid.  So the
search starts at a grid coarser than the number itself and refines it one power of ten
at a time, until a neighbour of the number on the grid reads back.  A double has a
finite decimal expansion, which ends the search in any case.
-/

namespace StackLisp.Decimal

/-- A magnitude counted in steps of the grid `10 ^ e`, as a quotient of naturals. -/
def gridQuotient (units : Nat) (e : Int) : Nat × Nat :=
  if 0 ≤ e then (units, Double.unitsPerOne * Nat.pow 10 e.toNat)
  else (units * Nat.pow 10 (-e).toNat, Double.unitsPerOne)

/-- The two neighbours of a magnitude on the grid `10 ^ e`, the nearer one first. -/
def neighbours (units : Nat) (e : Int) : List Decimal :=
  let (num, den) := gridQuotient units e
  let near := Double.roundQuotient num den
  let floor := num / den
  [⟨near, e⟩, ⟨if near = floor then floor + 1 else floor, e⟩]

/-- A decimal of the grid `10 ^ e` that reads back as `word`, if one of the neighbours
does. -/
def onGrid? (word : Nat) (e : Int) : Option Decimal :=
  (neighbours (Double.units word) e).find? (·.nearestWord = word)

/-- The first decimal that reads back as `word`, from the grid `10 ^ e` on through `fuel`
refinements. -/
def search? (word : Nat) : Nat → Int → Option Decimal
  | 0, _ => none
  | fuel + 1, e =>
    match onGrid? word e with
    | some d => some d
    | none => search? word fuel (e - 1)

/-- The whole decimal expansion of a magnitude. -/
def exact (units : Nat) : Decimal :=
  ⟨units * Nat.pow 5 1074, -1074⟩

/-- A power of ten above a magnitude that is not zero, and at most a few powers above:
one binary digit is worth a little more than three tenths of a decimal one. -/
def coarsest (units : Nat) : Int :=
  ((Nat.log2 units : Int) - 1074) * 30103 / 100000 + 3

/-- How many grids are tried: seventeen digits tell all doubles apart, and the first
few grids may be coarser than the number. -/
def searchLength : Nat := 24

/-- **The shortest decimal that reads back as the finite double with the given word.** -/
def shortest (word : Nat) : Decimal :=
  if word = 0 then ⟨0, 0⟩
  else
    let units := Double.units word
    ((search? word searchLength (coarsest units)).getD (exact units)).normalize

end StackLisp.Decimal
