import RecordService.Json.Printer
/-!
# Numerals of the table

The table holds a number as its decimal text. An integer is written with all its digits, a double
with all places that its shortest decimal has, never with an exponent and never with a fraction of
zero. A text is read as an integer if a word can hold it, and as the nearest double otherwise;
a double that is not finite is read as nothing.
-/

namespace RecordService.Table.Numeral

open Decimal

/-- Doubles in the table: no exponents, no `.0`, and a half goes up. -/
def reals : Layout := ⟨none, false, .up⟩

/-- The text of a number. -/
def text : Number → String
  | .integer i => String.ofList (Value.intText i.toInt)
  | .real x => String.ofList (reals.text x)

/-- A text as a number. -/
inductive Reading where
  | number (n : Number)
  /-- Infinite, too large for a double, or undefined. -/
  | notFinite
deriving DecidableEq

/-- Whether the number is negative, and what follows the sign. -/
def sign : List Char → Bool × List Char
  | '-' :: cs => (true, cs)
  | '+' :: cs => (false, cs)
  | cs => (false, cs)

/-- Digits after a sign, if there is one. -/
def integer? (cs : List Char) : Option Int :=
  let (negative, digits) := sign cs
  if digits.isEmpty ∨ !digits.all Char.isDigit then none
  else
    let n : Int := Nat.ofDigitChars 10 digits 0
    some (if negative then -n else n)

/-- The exponent that ends a numeral; without one it is zero. -/
def exponent? : List Char → Option Int
  | [] => some 0
  | c :: cs => if c = 'e' ∨ c = 'E' then integer? cs else none

/-- The digits after a point, if there is one, and what follows them. -/
def places : List Char → List Char × List Char
  | '.' :: cs => (cs.takeWhile Char.isDigit, cs.dropWhile Char.isDigit)
  | cs => ([], cs)

/-- What a name of no finite number stands for, or the double nearest to digits with a point and an
exponent. Digits may be missing on one side of the point. -/
def real? (cs : List Char) : Option Reading := do
  let (negative, cs) := sign cs
  if ["inf", "infinity", "nan"].contains (String.ofList (cs.map Char.toLower)) then
    pure .notFinite
  else
    let whole := cs.takeWhile Char.isDigit
    let (places, rest) := places (cs.dropWhile Char.isDigit)
    guard (!(whole.isEmpty && places.isEmpty))
    let exponent ← exponent? rest
    let coefficient := Nat.ofDigitChars 10 (whole ++ places) 0
    pure (match Binary64.ofDecimal? negative coefficient (exponent - places.length) with
      | some x => .number (.real x)
      | none => .notFinite)

/-- What a text denotes, if it is a numeral. -/
def read? (text : String) : Option Reading :=
  match (integer? text.toList).bind WordInt.ofInt? with
  | some i => some (.number (.integer i))
  | none => real? text.toList

end RecordService.Table.Numeral
