import RecordService.Text.Quoted
/-!
# Faults of JSON texts

Why a text is no JSON, or is JSON that does not hold a value: the words for each cause, the line and
column where it shows, and the way to the value at fault through the lists and maps around it.
-/

namespace RecordService.Json

/-! ## Texts that are no JSON -/

/-- Why a text is no JSON. -/
inductive Complaint where
  | endsInList
  | endsInMap
  | endsInText
  | endsInValue
  | noColon
  /-- Neither the end of the list nor a comma follows an item. -/
  | noItemEnd
  /-- Neither the end of the map nor a comma follows a member. -/
  | noMemberEnd
  | noWord
  | noValue
  /-- A member begins with something other than a quote. -/
  | noName
  | badEscape
  | badNumber
  | largeNumber
  | notUtf8
  | controlInText
  /-- An escaped code unit that must follow another one, or that another one does not follow. -/
  | loneUnit
  /-- No escape follows the first code unit of a pair. -/
  | halfPair
  | commaAtEnd
  /-- Something follows the value. -/
  | trailing
  | tooDeep
deriving DecidableEq, Repr

def Complaint.message : Complaint → String
  | .endsInList => "EOF while parsing a list"
  | .endsInMap => "EOF while parsing an object"
  | .endsInText => "EOF while parsing a string"
  | .endsInValue => "EOF while parsing a value"
  | .noColon => "expected `:`"
  | .noItemEnd => "expected `,` or `]`"
  | .noMemberEnd => "expected `,` or `\x7d`"
  | .noWord => "expected ident"
  | .noValue => "expected value"
  | .noName => "key must be a string"
  | .badEscape => "invalid escape"
  | .badNumber => "invalid number"
  | .largeNumber => "number out of range"
  | .notUtf8 => "invalid unicode code point"
  | .controlInText => "control character (\\u0000-\\u001F) found while parsing a string"
  | .loneUnit => "lone leading surrogate in hex escape"
  | .halfPair => "unexpected end of hex escape"
  | .commaAtEnd => "trailing comma"
  | .trailing => "trailing characters"
  | .tooDeep => "recursion limit exceeded"

/-- Where a text stops being JSON, and why: `rest` is what follows the last octet that was looked
at. -/
structure Break where
  complaint : Complaint
  rest : List UInt8
deriving DecidableEq, Repr

/-! ## Places -/

/-- A line, counted from one, and the number of octets before a place in it. -/
structure LineColumn where
  line : Nat
  column : Nat
deriving DecidableEq, Repr

/-- The place after some octets. -/
def LineColumn.after (octets : List UInt8) : LineColumn :=
  ⟨1 + octets.count 0x0A, (octets.reverse.takeWhile (· ≠ 0x0A)).length⟩

/-- The place in a text before the octets `rest`, in which the text ends. -/
def LineColumn.before (text rest : List UInt8) : LineColumn :=
  .after (text.take (text.length - rest.length))

/-- One step to a value: to the member of a name, as the name is written, or to the place in a
list. -/
inductive Place where
  | member (name : String)
  | item (index : Nat)
deriving DecidableEq, Repr

def Place.message : Place → String
  | .member name => name
  | .item index => "[" ++ toString index ++ "]"

/-- A place after another one: a point sets a name off. -/
def Place.next : Place → String
  | .member name => "." ++ name
  | place => place.message

/-- The way to a value, before what is said of it. -/
def Place.path : List Place → String
  | [] => ""
  | place :: places => String.join (place.message :: places.map Place.next) ++ ": "

/-! ## Values of another kind -/

/-- What stands where something else is wanted. -/
inductive Found where
  | null
  | bool (b : Bool)
  | integer (digits : String)
  | real (digits : String)
  | text (s : String)
  | list
  | map
deriving DecidableEq, Repr

def Found.message : Found → String
  | .null => "null"
  | .bool b => "boolean `" ++ (if b then "true" else "false") ++ "`"
  | .integer digits => "integer `" ++ digits ++ "`"
  | .real digits => "floating point `" ++ digits ++ "`"
  | .text s => "string " ++ Text.quoted s
  | .list => "sequence"
  | .map => "map"

/-! ## Texts that hold no value -/

inductive Cause where
  | notJson (complaint : Complaint)
  /-- Something else stands where a text is wanted that holds the value. -/
  | notEmbedded (found : Found)
deriving DecidableEq, Repr

def Cause.message : Cause → String
  | .notJson complaint => complaint.message
  | .notEmbedded found => "invalid type: " ++ found.message ++ ", expected raw value"

/-- Why a text holds no value. -/
structure Fault where
  /-- The way to the value at fault, if the text itself is JSON as far as it was read. -/
  path : Option (List Place)
  cause : Cause
  /-- Where the cause shows, in the innermost text that was read. -/
  place : LineColumn
deriving DecidableEq, Repr

/-- The cause, and where it shows. -/
def Fault.message (fault : Fault) : String :=
  fault.cause.message ++ " at line " ++ toString fault.place.line ++ " column "
    ++ toString fault.place.column

/-! ## Words for a request body -/

/-- A body that is no JSON. -/
def bodyMalformed : String := "Failed to parse the request body as JSON"

/-- A body that is JSON, but not what is wanted. -/
def bodyMisfit (reason : String) : String :=
  "Failed to deserialize the JSON body into the target type: " ++ reason

/-- What is wrong with a body that should hold a value. -/
def Fault.bodyMessage (fault : Fault) : String :=
  match fault.path with
  | none => bodyMalformed
  | some places => bodyMisfit (Place.path places ++ fault.cause.message)

end RecordService.Json
