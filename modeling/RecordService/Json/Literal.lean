import RecordService.Decimal.Scaling
import RecordService.Json.Fault
import RecordService.Value
/-!
# Numbers in JSON

A number as it is written, and the number it is read as: an integer if a word can hold it, otherwise
a double. For the double as many digits are taken as a word can hold, and scaled by a power of ten,
so it is near to what is written, but not always the nearest one. A number that is too large for a
double is read as none.
-/

namespace RecordService.Json

/-- A number as it is written: the digits before and after the point, and the exponent. -/
structure Literal where
  negative : Bool
  whole : List Char
  fraction : Option (List Char)
  exponent : Option Int
deriving DecidableEq, Repr

namespace Literal

/-- The integer that a literal is read as: it has neither point nor exponent, a word can hold it,
and it is no negative zero. -/
def integer? (l : Literal) : Option WordInt :=
  match l.fraction, l.exponent with
  | none, none =>
    let n := Nat.ofDigitChars 10 (l.whole.take 20) 0
    if 20 < l.whole.length ∨ (l.negative ∧ n = 0) then none
    else WordInt.ofInt? (if l.negative then -n else n)
  | _, _ => none

/-- Digits go into an unsigned word of 64 bits, after those already in it, as long as it can hold
them: the word, and the digits that are left. -/
def intoWord (word : Nat) : List Char → Nat × List Char
  | [] => (word, [])
  | d :: ds =>
    let next := 10 * word + (d.toNat - '0'.toNat)
    if next < 0x10000000000000000 then intoWord next ds else (word, d :: ds)

/-- The double that a literal is read as. The digits before the point that no word can hold count as
places, and those after it are dropped. -/
def real? (l : Literal) : Option Decimal.Binary64 :=
  let places := l.fraction.getD []
  let (word, excess) := intoWord 0 l.whole
  let (word, dropped) := intoWord word places
  Decimal.Binary64.ofScaled? l.negative word
    (l.exponent.getD 0 + excess.length + dropped.length - places.length)

/-- The number that a literal is read as, unless it is too large. -/
def number? (l : Literal) : Option Number :=
  match l.integer? with
  | some i => some (.integer i)
  | none => l.real?.map .real

end Literal

/-! ## Reading -/

def isDigit (b : UInt8) : Bool := 0x30 ≤ b && b ≤ 0x39

namespace Literal

/-- The leading digits, and what follows them. -/
def digitRun (bs : List UInt8) : List Char × List UInt8 :=
  ((bs.takeWhile isDigit).map fun b => Char.ofNat b.toNat, bs.dropWhile isDigit)

/-- The digits before the point: a zero alone, or digits that start with another one. -/
def readWhole : List UInt8 → Except Break (List Char × List UInt8)
  | [] => .error ⟨.endsInValue, []⟩
  | 0x30 :: d :: rest => if isDigit d then .error ⟨.badNumber, rest⟩ else .ok (['0'], d :: rest)
  | b :: rest => if isDigit b then .ok (digitRun (b :: rest)) else .error ⟨.badNumber, rest⟩

/-- Digits, of which there must be one. -/
def readDigits (bs : List UInt8) : Except Break (List Char × List UInt8) :=
  match digitRun bs with
  | ([], []) => .error ⟨.endsInValue, []⟩
  | ([], _ :: rest) => .error ⟨.badNumber, rest⟩
  | run => .ok run

/-- The digits after a point, if there is one. -/
def readFraction : List UInt8 → Except Break (Option (List Char) × List UInt8)
  | 0x2E :: rest => (readDigits rest).map fun (digits, rest) => (some digits, rest)
  | bs => .ok (none, bs)

/-- An exponent after its sign. -/
def readPower (negative : Bool) (bs : List UInt8) : Except Break (Option Int × List UInt8) :=
  (readDigits bs).map fun (digits, rest) =>
    let n : Int := Nat.ofDigitChars 10 digits 0
    (some (if negative then -n else n), rest)

/-- The exponent, if there is one. -/
def readExponent : List UInt8 → Except Break (Option Int × List UInt8)
  | [] => .ok (none, [])
  | b :: rest =>
    if b = 0x65 ∨ b = 0x45 then
      match rest with
      | 0x2B :: digits => readPower false digits
      | 0x2D :: digits => readPower true digits
      | digits => readPower false digits
    else .ok (none, b :: rest)

/-- A number after its sign. -/
def readUnsigned (negative : Bool) (bs : List UInt8) : Except Break (Literal × List UInt8) := do
  let (whole, bs) ← readWhole bs
  let (fraction, bs) ← readFraction bs
  let (exponent, bs) ← readExponent bs
  pure (⟨negative, whole, fraction, exponent⟩, bs)

/-- The number at the head of the octets, and what follows it. -/
def read : List UInt8 → Except Break (Literal × List UInt8)
  | 0x2D :: rest => readUnsigned true rest
  | bs => readUnsigned false bs

end Literal

end RecordService.Json
