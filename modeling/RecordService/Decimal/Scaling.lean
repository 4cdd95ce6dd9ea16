import RecordService.Decimal.Binary64
/-!
# Doubles scaled by powers of ten

A short way from digits to a double: a word becomes the double that is nearest to it, and this is
multiplied or divided by the double that is nearest to a power of ten. Each step is rounded by
itself, so the double that comes out need not be the one that is nearest to the decimal. Powers
beyond the doubles are divided by in turns; what would be multiplied by one is too large.
-/

namespace RecordService.Decimal

/-- The exponent of the greatest power of ten among the doubles. -/
def greatestPower : Nat := 308

namespace Binary64

/-- The units of the double that is nearest to a power of ten. -/
def powerUnits (k : Nat) : Nat :=
  nearestUnits (Nat.pow 10 k) 1

/-- Divided by the greatest power so many times, or until nothing is left. -/
def lowered : Nat → Nat → Nat
  | 0, units => units
  | turns + 1, units =>
    if units = 0 then 0 else lowered turns (nearestUnits units (powerUnits greatestPower))

/-- A word, times `10 ^ exponent`. -/
def ofScaled? (negative : Bool) (word : Nat) (exponent : Int) : Option Binary64 :=
  let units := nearestUnits word 1
  let power := exponent.natAbs
  if units = 0 then some (zero negative)
  else if exponent < 0 then
    let turns := (power - 1) / greatestPower
    ofUnits? negative
      (nearestUnits (lowered turns units) (powerUnits (power - greatestPower * turns)))
  else if greatestPower < power then none
  else ofUnits? negative (nearestUnits (units * powerUnits power) (one * one))

end Binary64

end RecordService.Decimal
