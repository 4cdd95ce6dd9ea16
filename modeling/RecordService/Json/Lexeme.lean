import RecordService.Json.Literal
import RecordService.Json.Quoted
import RecordService.Json.Token
/-!
# The tokens of a JSON text

The octets of a JSON text as a list of tokens, each with its place. The list ends early where a text
or a scalar breaks off, or where no token begins; that token is kept with the reason, for the reader
who comes upon it where it matters. Quotes may close and yet hold no text, and a number may be too
large: that too is left to who wants the text or the number.
-/

namespace RecordService.Json

/-- What stands between two quotes. -/
inductive Quoted where
  | text (s : String)
  /-- The quotes close, but hold no text. -/
  | unreadable (why : Break)
  /-- The quotes do not close; this is the last token. -/
  | broken (why : Break)
deriving DecidableEq, Repr

inductive Scalar where
  | null
  | bool (b : Bool)
  | number (literal : Literal)
  /-- A word or a number that breaks off; this is the last token. -/
  | broken (why : Break)
  /-- An octet at which no token begins; this is the last token. -/
  | stray
deriving DecidableEq, Repr

/-- A token at its place: the octets from its first one on, and those after its last one. -/
structure Lexeme where
  token : Token Quoted Scalar
  here : List UInt8
  after : List UInt8
deriving DecidableEq, Repr

/-- What follows a word. -/
def readWord : List UInt8 → List UInt8 → Except Break (List UInt8)
  | [], bs => .ok bs
  | _ :: _, [] => .error ⟨.endsInValue, []⟩
  | w :: word, b :: bs => if b = w then readWord word bs else .error ⟨.noWord, bs⟩

namespace Token

/-- A word after its first letter, and what follows it, unless the word is the last token. -/
def ofWord (scalar : Scalar) (word bs : List UInt8) :
    Token Quoted Scalar × Option (List UInt8) :=
  match readWord word bs with
  | .ok rest => (.scalar scalar, some rest)
  | .error why => (.scalar (.broken why), none)

/-- A number, and what follows it, unless it is the last token. -/
def ofNumber (bs : List UInt8) : Token Quoted Scalar × Option (List UInt8) :=
  match Literal.read bs with
  | .ok (l, rest) => (.scalar (.number l), some rest)
  | .error why => (.scalar (.broken why), none)

/-- A text after its first quote, and what follows it, unless it is the last token. -/
def ofQuoted (bs : List UInt8) : Token Quoted Scalar × Option (List UInt8) :=
  match Quoted.read bs with
  | .ok (s, rest) => (.text (.text s), some rest)
  | .error why =>
    match Quoted.pass? bs with
    | some rest => (.text (.unreadable why), some rest)
    | none => (.text (.broken why), none)

/-- The token that begins with `b`, and what follows it, unless it is the last token. -/
def ofOctet (b : UInt8) (bs : List UInt8) : Token Quoted Scalar × Option (List UInt8) :=
  match mark? b with
  | some t => (t, some bs)
  | none =>
    if b = 0x22 then ofQuoted bs
    else if b = 0x2D ∨ isDigit b then ofNumber (b :: bs)
    else if b = 0x6E then ofWord .null [0x75, 0x6C, 0x6C] bs
    else if b = 0x74 then ofWord (.bool true) [0x72, 0x75, 0x65] bs
    else if b = 0x66 then ofWord (.bool false) [0x61, 0x6C, 0x73, 0x65] bs
    else (.scalar .stray, none)

end Token

/-- The tokens of the octets, after those already `seen` (last first). Each token takes at least one
octet, so as many steps as there are octets are enough. -/
def lexemesFrom : Nat → List Lexeme → List UInt8 → List Lexeme
  | 0, seen, _ => seen.reverse
  | steps + 1, seen, bs =>
    match bs.dropWhile isBlank with
    | [] => seen.reverse
    | b :: rest =>
      match Token.ofOctet b rest with
      | (t, some after) => lexemesFrom steps (⟨t, b :: rest, after⟩ :: seen) after
      | (t, none) => (⟨t, b :: rest, []⟩ :: seen).reverse

/-- The tokens of a text with their places. -/
def lexemes (bs : List UInt8) : List Lexeme :=
  lexemesFrom bs.length [] bs

/-- The tokens of a text. -/
def tokens (bs : List UInt8) : List (Token Quoted Scalar) :=
  (lexemes bs).map (·.token)

end RecordService.Json
