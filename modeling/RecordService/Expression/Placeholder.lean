import RecordService.Error
import RecordService.Text.Hex
/-!
# Placeholders

Attribute names never stand in an expression. In their place stand placeholders made from a token
that encodes the name: ASCII letters and digits stay, `_` is doubled, and any other character is its
code point in hexadecimal between two `_`.
-/

namespace RecordService.Expression

def isPlain (c : Char) : Bool :=
  c.isAlphanum

/-- The code of one character. -/
def encodeChar (c : Char) : List Char :=
  if isPlain c then [c]
  else if c = '_' then ['_', '_']
  else '_' :: Text.Hex.digits c.toNat ++ ['_']

/-- The token of a name. -/
def token (name : String) : String :=
  String.ofList (name.toList.flatMap encodeChar)

/-- The token of a name that may be used in an expression: the empty name may not. -/
def token? (name : String) : Except Error String :=
  if name = "" then .error (.invalidAttributeName name) else .ok (token name)

def namePlaceholder (token : String) : String := "#" ++ token

def valuePlaceholder (token : String) : String := ":" ++ token

end RecordService.Expression
