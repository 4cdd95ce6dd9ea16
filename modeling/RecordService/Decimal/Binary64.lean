/-!
# Finite doubles

A finite double is a sign and a whole number of units of 2^-1074, the least positive double. Near a
given double the doubles are spaced by a power of two units, which is fixed by the length of the
number: that and the bound on the exponent are the two conditions a number of units meets.

`ofRatio?` rounds a quotient to the nearest double, ties to the one whose last place is even, and
`ofDecimal?` a decimal number; both give `none` when the result is too large to be finite.
-/

namespace RecordService.Decimal

/-- Where a number goes that lies halfway between two neighbours. -/
inductive Tie where
  | toEven
  | up
deriving DecidableEq, Repr

/-- The quotient `n / d` rounded to the nearest natural number. -/
def roundDiv (tie : Tie) (n d : Nat) : Nat :=
  let q := n / d
  let r := n % d
  if 2 * r < d then q
  else if d < 2 * r then q + 1
  else match tie with
    | .toEven => if q % 2 = 0 then q else q + 1
    | .up => q + 1

/-- The distance between neighbouring doubles at a number of units. -/
def spacing (units : Nat) : Nat :=
  Nat.pow 2 (units.log2 - 52)

/-- The number of units in one. -/
def one : Nat :=
  Nat.pow 2 1074

/-- A finite double: `units` times 2^-1074, with a sign that zero has too. -/
structure Binary64 where
  negative : Bool
  units : Nat
  finite : units.log2 < 2098
  spaced : units % spacing units = 0
deriving DecidableEq

namespace Binary64

/-- The double with this sign and number of units, if there is one. -/
def ofUnits? (negative : Bool) (units : Nat) : Option Binary64 :=
  if h : units.log2 < 2098 ∧ units % spacing units = 0 then some ⟨negative, units, h.1, h.2⟩
  else none

def zero (negative : Bool) : Binary64 :=
  ⟨negative, 0, by decide, Nat.zero_mod _⟩

/-- The number of units that a quotient is nearest to, at the spacing of doubles there. -/
def nearestUnits (num den : Nat) : Nat :=
  let scaled := num * one
  let step := spacing (scaled / den)
  roundDiv .toEven scaled (den * step) * step

/-- The double nearest to `num / den`, with the given sign. -/
def ofRatio? (negative : Bool) (num den : Nat) : Option Binary64 :=
  ofUnits? negative (nearestUnits num den)

/-- The double nearest to `coefficient * 10 ^ exponent`. Exponents that settle the result by
themselves are not raised to a power. -/
def ofDecimal? (negative : Bool) (coefficient : Nat) (exponent : Int) : Option Binary64 :=
  if coefficient = 0 ∨ exponent < -(400 + coefficient.log2 : Int) then some (zero negative)
  else if 400 < exponent then none
  else ofRatio? negative (coefficient * Nat.pow 10 exponent.toNat) (Nat.pow 10 (-exponent).toNat)

/-- Numerical equality: the two zeros are equal. -/
def beq (x y : Binary64) : Bool :=
  x.units == y.units && (x.negative == y.negative || x.units == 0)

instance : BEq Binary64 := ⟨beq⟩

theorem ofUnits?_self (x : Binary64) : ofUnits? x.negative x.units = some x := by
  simp [ofUnits?, x.finite, x.spaced]

theorem beq_refl (x : Binary64) : beq x x = true := by
  simp [beq]

end Binary64

end RecordService.Decimal
