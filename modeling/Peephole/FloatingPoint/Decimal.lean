import Peephole.FloatingPoint.Arithmetic

/-!
# Decimal fractions

The number of binary64 nearest to a decimal numeral with an exponent. Numerals far outside the
range of binary64 are settled by their number of digits, so that no power of ten grows with the
exponent.
-/

namespace Peephole

/-- A decimal numeral: its sign, its digits read as one integer, the number of those digits after
the point, and its exponent of ten. -/
structure Decimal where
  /-- Whether a minus sign stands in front. -/
  negative : Bool
  /-- The digits before and after the point, as one integer. -/
  digits : Nat
  /-- How many digits there are, leading zeros not counted. -/
  length : Nat
  /-- The power of ten that the integer is multiplied by. -/
  exponent : Int
  deriving DecidableEq, Repr

/-- The datum of binary64 nearest to a decimal numeral. The numeral lies between
`10 ^ (length + exponent - 1)` and `10 ^ (length + exponent)`, of which everything from `10 ^ 310`
up is infinite and everything below `10 ^ (-330)` is zero. -/
def Decimal.toDatum (d : Decimal) : Datum :=
  if d.digits = 0 then .finite d.negative 0
  else if 310 < d.length + d.exponent then .infinite d.negative
  else if d.length + d.exponent < -330 then .finite d.negative 0
  else if 0 ≤ d.exponent then
    .ofRatio d.negative (d.digits * Nat.pow 10 d.exponent.toNat * twoPow unitsLog) 1
  else
    .ofRatio d.negative (d.digits * twoPow unitsLog) (Nat.pow 10 (-d.exponent).toNat)

end Peephole
