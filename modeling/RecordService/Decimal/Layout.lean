import RecordService.Decimal.Shortest
/-!
# Layouts of decimal text

How the digits of a number are set: with the point in its place, or with one digit before the point
and an exponent. A layout is what a format decides about it.
-/

namespace RecordService.Decimal

/-- A format's decisions. `positional` are the exponents of the first digit between which no
exponent is written; without bounds it never is. -/
structure Layout where
  positional : Option (Int × Int)
  /-- A whole number ends in `.0`. -/
  wholeFraction : Bool
  tie : Tie
deriving DecidableEq, Repr

/-- The digits with the point in its place. -/
def positionalText (wholeFraction : Bool) (digits : List Char) (exponent : Int) : List Char :=
  if 0 ≤ exponent then
    digits ++ List.replicate exponent.toNat '0' ++ (if wholeFraction then ['.', '0'] else [])
  else
    let places := (-exponent).toNat
    if places < digits.length then
      digits.take (digits.length - places) ++ '.' :: digits.drop (digits.length - places)
    else '0' :: '.' :: List.replicate (places - digits.length) '0' ++ digits

/-- The digits with the point after the first one, and the exponent with its sign. -/
def exponentText (digits : List Char) (first : Int) : List Char :=
  let fraction := if digits.length ≤ 1 then [] else '.' :: digits.drop 1
  let sign := if first < 0 then '-' else '+'
  digits.take 1 ++ fraction ++ 'e' :: sign :: Nat.toDigits 10 first.natAbs

/-- A decimal number as the layout sets it. -/
def Layout.decimal (layout : Layout) (d : Scaled) : List Char :=
  let digits := Nat.toDigits 10 d.coefficient
  let first := d.exponent + digits.length - 1
  let isPositional := match layout.positional with
    | none => true
    | some (least, most) => decide (least ≤ first ∧ first ≤ most)
  if isPositional then positionalText layout.wholeFraction digits d.exponent
  else exponentText digits first

/-- A double as the layout sets it, by the fewest digits that read back. -/
def Layout.text (layout : Layout) (x : Binary64) : List Char :=
  (if x.negative then ['-'] else []) ++ layout.decimal (shortest layout.tie x.units)

end RecordService.Decimal
