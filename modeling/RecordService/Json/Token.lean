/-!
# JSON tokens

The tokens of JSON: the marks that build lists and maps, texts between quotes, which are values and
names of members alike, and scalars, which are values only. What is known of a text and of a scalar
is left to the reader of the octets.
-/

namespace RecordService.Json

/-- Tokens with texts of the type `τ` and scalars of the type `σ`. -/
inductive Token (τ σ : Type) where
  | beginList
  | endList
  | beginMap
  | endMap
  | comma
  | colon
  | text (t : τ)
  | scalar (s : σ)
deriving DecidableEq, Repr

/-- Blanks may stand between tokens. -/
def isBlank (b : UInt8) : Bool := b == 0x20 || b == 0x09 || b == 0x0A || b == 0x0D

/-- The mark that an octet is. -/
def Token.mark? {τ σ : Type} (b : UInt8) : Option (Token τ σ) :=
  if b = 0x5B then some .beginList
  else if b = 0x5D then some .endList
  else if b = 0x7B then some .beginMap
  else if b = 0x7D then some .endMap
  else if b = 0x2C then some .comma
  else if b = 0x3A then some .colon
  else none

end RecordService.Json
