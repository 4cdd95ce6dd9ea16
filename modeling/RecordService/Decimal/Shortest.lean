import RecordService.Decimal.Binary64
/-!
# Shortest decimals

Among the decimal numbers that round to a double, the one with the fewest digits, and of those the
nearest to it. The search walks the decimal grids from coarse to fine. On each grid only the two
neighbours of the double can be nearest; the first grid on which one of them rounds to the double
gives the answer. In units of 10^-1074 every double is a whole number, so the search ends.
-/

namespace RecordService.Decimal

/-- A decimal number: `coefficient * 10 ^ exponent`. -/
structure Scaled where
  coefficient : Nat
  exponent : Int
deriving DecidableEq, Repr

/-- The same number without trailing zeros in the coefficient. -/
def Scaled.trim (d : Scaled) : Scaled :=
  if d.coefficient ≠ 0 ∧ d.coefficient % 10 = 0 then
    Scaled.trim ⟨d.coefficient / 10, d.exponent + 1⟩
  else d
termination_by d.coefficient
decreasing_by omega

/-- A number of 2^-1074 units counted in 10^-1074. -/
def fine (units : Nat) : Nat :=
  units * Nat.pow 5 1074

/-- A decimal, counted in 10^-1074, rounds to the double with these units. -/
def roundsTo (n units : Nat) : Bool :=
  Binary64.nearestUnits n (Nat.pow 10 1074) == units

/-- The multiple of `grid` that rounds to the double and is nearest to it, as a multiplier. -/
def onGrid? (tie : Tie) (units grid : Nat) : Option Nat :=
  let below := fine units / grid
  if roundsTo (below * grid) units then
    some (if roundsTo ((below + 1) * grid) units then roundDiv tie (fine units) grid else below)
  else if roundsTo ((below + 1) * grid) units then some (below + 1)
  else none

/-- The first answer on the grids `10 ^ k`, `10 ^ (k - 1)`, …, 1. -/
def search (tie : Tie) (units : Nat) : Nat → Scaled
  | 0 => ⟨fine units, -1074⟩
  | k + 1 =>
    (onGrid? tie units (Nat.pow 10 (k + 1))).elim (search tie units k) fun n =>
      ⟨n, (k : Int) + 1 - 1074⟩

/-- The decimal of fewest digits that rounds to the double with these units. -/
def shortest (tie : Tie) (units : Nat) : Scaled :=
  if units = 0 then ⟨0, 0⟩
  else (search tie units ((Nat.toDigits 10 (fine units)).length - 1)).trim

end RecordService.Decimal
