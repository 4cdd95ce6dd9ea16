import RecordService.Json.Quoted
import RecordService.Json.Tree
import RecordService.Table.Numeral
/-!
# The JSON of answers

The table's answers are JSON that is taken loosely. A text ends at the first quote without a
backslash in front of it, and its escapes are looked at only by who wants the text. A number is the
longest run of characters that numbers are made of, if it is a numeral of the table: zeros may lead,
and digits may be missing on one side of the point. What is passed over may be no deeper than
`passedDepth`.
-/

namespace RecordService.Table.Notation

open Json

inductive Scalar where
  | null
  | bool (b : Bool)
  | number (reading : Numeral.Reading)
  /-- Octets at which no token begins; this is the last token. -/
  | broken
deriving DecidableEq

/-- Texts as they are written between the quotes. -/
abbrev Token := Json.Token String Scalar

/-- Texts and names as they are written between the quotes. -/
abbrev Tree := Json.Tree String Scalar

/-! ## Tokens -/

/-- The octets up to the closing quote as they are written, after those already `seen` (last first),
and what follows them. -/
def quotedFrom (seen : List UInt8) : List UInt8 → Option (List UInt8 × List UInt8)
  | 0x22 :: rest => some (seen.reverse, rest)
  | 0x5C :: b :: rest => quotedFrom (b :: 0x5C :: seen) rest
  | b :: rest => if b < 0x20 ∨ b = 0x5C then none else quotedFrom (b :: seen) rest
  | [] => none

/-- A text after its first quote, and what follows it. -/
def quotedAt (bs : List UInt8) : Option (Token × List UInt8) := do
  let (written, rest) ← quotedFrom [] bs
  let cs ← Text.Utf8.decode? written
  pure (.text (String.ofList cs), rest)

/-- A digit, a point, the mark of an exponent, or a sign. -/
def isNumeral (b : UInt8) : Bool :=
  (0x30 ≤ b && b ≤ 0x39) || b == 0x2E || b == 0x65 || b == 0x45 || b == 0x2B || b == 0x2D

/-- A number, and what follows it. -/
def numberAt (bs : List UInt8) : Option (Token × List UInt8) := do
  let written := (bs.takeWhile isNumeral).map fun b => Char.ofNat b.toNat
  let reading ← Numeral.read? (String.ofList written)
  pure (.scalar (.number reading), bs.dropWhile isNumeral)

/-- What follows a word. -/
def afterWord (word bs : List UInt8) : Option (List UInt8) :=
  if word.isPrefixOf bs then some (bs.drop word.length) else none

/-- The token that begins with `b`, and what follows it. -/
def ofOctet (b : UInt8) (bs : List UInt8) : Option (Token × List UInt8) :=
  match Token.mark? b with
  | some t => some (t, bs)
  | none =>
    if b = 0x22 then quotedAt bs
    else if b = 0x2D ∨ (0x30 ≤ b ∧ b ≤ 0x39) then numberAt (b :: bs)
    else if b = 0x6E then (afterWord [0x75, 0x6C, 0x6C] bs).map fun rest => (.scalar .null, rest)
    else if b = 0x74 then
      (afterWord [0x72, 0x75, 0x65] bs).map fun rest => (.scalar (.bool true), rest)
    else if b = 0x66 then
      (afterWord [0x61, 0x6C, 0x73, 0x65] bs).map fun rest => (.scalar (.bool false), rest)
    else none

/-- The tokens of the octets, after those already `seen` (last first). Each token takes at least one
octet, so as many steps as there are octets are enough. -/
def tokensFrom : Nat → List Token → List UInt8 → List Token
  | 0, seen, _ => seen.reverse
  | steps + 1, seen, bs =>
    match bs.dropWhile isBlank with
    | [] => seen.reverse
    | b :: rest =>
      match ofOctet b rest with
      | some (t, rest) => tokensFrom steps (t :: seen) rest
      | none => (.scalar .broken :: seen).reverse

/-- The tokens of an answer, to its end or to where no token begins. -/
def tokens (bs : List UInt8) : List Token :=
  tokensFrom bs.length [] bs

/-! ## Trees -/

/-- The members of an answer, which is one object; an answer without octets has none. -/
def members? (bs : List UInt8) : Option (List (String × Tree)) :=
  if bs.isEmpty then some []
  else match Tree.whole? (tokens bs) with
    | some (.map ms) => some ms
    | _ => none

/-- The text of what is written between quotes. -/
def text? (written : String) : Option String :=
  ((Quoted.read (written.toUTF8.toList ++ [0x22])).toOption).map (·.1)

/-- How many lists and maps may stand inside each other in what is passed over. -/
def passedDepth : Nat := 512

/-- What is not asked for may be passed over. -/
def isPassed (t : Tree) : Bool :=
  t.isWithin passedDepth

def isNull : Tree → Bool
  | .scalar .null => true
  | _ => false

end RecordService.Table.Notation
