/-!
# Base64

Octets written as text, three of them in four characters. Only the one canonical text of some octets
is accepted: padded to whole groups, the bits that stand for nothing zero.
-/

namespace RecordService.Text.Base64

/-- The six bits of a character. -/
def value? (c : Char) : Option Nat :=
  if 'A' ≤ c ∧ c ≤ 'Z' then some (c.toNat - 'A'.toNat)
  else if 'a' ≤ c ∧ c ≤ 'z' then some (c.toNat - 'a'.toNat + 26)
  else if '0' ≤ c ∧ c ≤ '9' then some (c.toNat - '0'.toNat + 52)
  else if c = '+' then some 62
  else if c = '/' then some 63
  else none

def isDigit (c : Char) : Bool := (value? c).isSome

/-- The character stands for a multiple of a unit. -/
def isMultiple (unit : Nat) (c : Char) : Bool :=
  (value? c).any (· % unit == 0)

/-- The characters are the canonical text of some octets. -/
def isCanonical : List Char → Bool
  | [] => true
  | [a, b, '=', '='] => isDigit a && isMultiple 16 b
  | [a, b, c, '='] => isDigit a && isDigit b && isMultiple 4 c
  | a :: b :: c :: d :: rest => isDigit a && isDigit b && isDigit c && isDigit d && isCanonical rest
  | _ => false

end RecordService.Text.Base64
