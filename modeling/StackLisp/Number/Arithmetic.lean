import StackLisp.Number.Double

/-!
# Remainder and power

Addition, subtraction, multiplication and division of doubles are the machine's own.
Two operations have rules worth stating: the **remainder** of a division that rounds
towards zero, computed exactly, and the **power**, which has one value at zero.
-/

namespace StackLisp.Double

/-- **The exact remainder**, with the sign of the dividend.  There is none for an
infinite dividend or a zero divisor, and an infinite divisor leaves the dividend as it is. -/
def remainder (a b : Float) : Float :=
  if a.isNaN || b.isNaN || !isFinite a || b == 0 then nan
  else if !isFinite b then a
  else ofWord (isNegative a) (nearest (units (word a) % units (word b)) 1)

/-- **The power**.  A zero raised to a negative power is positive infinity, whatever the
sign of the zero. -/
def power (a b : Float) : Float :=
  if a == 0 && isFinite b && b < 0 then infinity else Float.pow a b

end StackLisp.Double
