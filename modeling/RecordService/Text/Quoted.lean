import RecordService.Text.Hex
import RecordService.Text.Printable
/-!
# Quoted text

A text as it is shown in messages: between double quotes, with quotes, backslashes and every
character that is not printable escaped, so that a message stays on one line and shows what the
text holds.
-/

namespace RecordService.Text

/-- One character between quotes; what is not printable is written as its code point. -/
def quotedChar (c : Char) : List Char :=
  match c with
  | '"' => ['\\', '"']
  | '\\' => ['\\', '\\']
  | '\n' => ['\\', 'n']
  | '\r' => ['\\', 'r']
  | '\t' => ['\\', 't']
  | '\x00' => ['\\', '0']
  | c => if isPrintable c then [c] else '\\' :: 'u' :: '\x7b' :: Hex.digits c.toNat ++ ['\x7d']

/-- The text between quotes. -/
def quoted (s : String) : String :=
  String.ofList ('"' :: s.toList.flatMap quotedChar ++ ['"'])

end RecordService.Text
