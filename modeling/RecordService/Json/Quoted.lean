import RecordService.Json.Fault
import RecordService.Text.Hex
import RecordService.Text.Utf8
/-!
# Texts in JSON

What stands between two quotes is read octet by octet by a machine that remembers the escape it is
inside of. Code units above the basic plane come in pairs of escapes; one alone makes the quotes
hold no text. `pass?` finds the end of such quotes all the same, for readers that do not want the
text.
-/

namespace RecordService.Json

namespace Quoted

/-- The octet that a short escape stands for. -/
def shortEscape? : UInt8 → Option UInt8
  | 0x22 => some 0x22
  | 0x5C => some 0x5C
  | 0x2F => some 0x2F
  | 0x62 => some 0x08
  | 0x66 => some 0x0C
  | 0x6E => some 0x0A
  | 0x72 => some 0x0D
  | 0x74 => some 0x09
  | _ => none

/-- The first code unit of a pair. -/
def isHigh (u : Nat) : Bool := 0xD800 ≤ u && u < 0xDC00

/-- The second code unit of a pair. -/
def isLow (u : Nat) : Bool := 0xDC00 ≤ u && u < 0xE000

/-- The character of a pair of code units. -/
def paired (high low : Nat) : Char :=
  Char.ofNat (0x10000 + (high - 0xD800) * 0x400 + (low - 0xDC00))

/-- What the machine is inside of. -/
inductive Mode where
  | plain
  /-- After a backslash. -/
  | escape
  /-- In an escaped code unit, after `digits` (last first), and after the code unit `high` if that
  wants a second one. -/
  | unit (high : Option Nat) (digits : List UInt8)
  /-- After the first code unit of a pair. -/
  | half (high : Nat)
  /-- After the first code unit of a pair and a backslash. -/
  | halfEscape (high : Nat)
deriving DecidableEq, Repr

/-- What an octet does. -/
inductive Step where
  | close
  /-- The octets it completes, last first. -/
  | go (mode : Mode) (octets : List UInt8)
  | refuse (complaint : Complaint)
deriving DecidableEq, Repr

/-- The octets of a character, last first. -/
def octets (c : Char) : List UInt8 :=
  (String.utf8EncodeChar c).reverse

/-- A code unit is complete. -/
def ofUnit (high : Option Nat) (u : Nat) : Step :=
  match high with
  | some h => if isLow u then .go .plain (octets (paired h u)) else .refuse .loneUnit
  | none =>
    if isLow u then .refuse .loneUnit
    else if isHigh u then .go (.half u) []
    else .go .plain (octets (Char.ofNat u))

def step : Mode → UInt8 → Step
  | .plain, b =>
    if b = 0x22 then .close
    else if b = 0x5C then .go .escape []
    else if b < 0x20 then .refuse .controlInText
    else .go .plain [b]
  | .escape, b =>
    if b = 0x75 then .go (.unit none []) []
    else match shortEscape? b with
      | some c => .go .plain [c]
      | none => .refuse .badEscape
  | .unit high [c, b, a], d =>
    match Text.Hex.ofDigits? [a, b, c, d] with
    | some u => ofUnit high u
    | none => .refuse .badEscape
  | .unit high digits, b => .go (.unit high (b :: digits)) []
  | .half high, b => if b = 0x5C then .go (.halfEscape high) [] else .refuse .halfPair
  | .halfEscape high, b => if b = 0x75 then .go (.unit (some high) []) [] else .refuse .halfPair

/-- The octets up to the closing quote, after those already `seen`, last first, and what follows. -/
def readFrom (mode : Mode) (seen : List UInt8) :
    List UInt8 → Except Break (List UInt8 × List UInt8)
  | [] => .error ⟨.endsInText, []⟩
  | b :: rest =>
    match step mode b with
    | .close => .ok (seen.reverse, rest)
    | .go mode octets => readFrom mode (octets ++ seen) rest
    | .refuse complaint => .error ⟨complaint, rest⟩

/-- The text after an opening quote, and what follows the closing one. -/
def read (bs : List UInt8) : Except Break (String × List UInt8) := do
  let (octets, rest) ← readFrom .plain [] bs
  match Text.Utf8.decode? octets with
  | some cs => pure (String.ofList cs, rest)
  | none => throw ⟨.notUtf8, rest⟩

/-- What follows the closing quote, whatever the quotes hold. -/
def pass? : List UInt8 → Option (List UInt8)
  | 0x22 :: rest => some rest
  | 0x5C :: 0x75 :: a :: b :: c :: d :: rest =>
    if (Text.Hex.ofDigits? [a, b, c, d]).isSome then pass? rest else none
  | 0x5C :: e :: rest => if (shortEscape? e).isSome then pass? rest else none
  | b :: rest => if b < 0x20 ∨ b = 0x5C then none else pass? rest
  | [] => none

end Quoted

end RecordService.Json
