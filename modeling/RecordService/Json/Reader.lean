import RecordService.Json.Lexeme
import RecordService.Json.Printer
/-!
# Reading JSON values

A value is read from the tokens of its text from left to right, and the first fault ends the
reading: the text is no JSON there, a number is too large, or more than `depthLimit` lists and maps
stand inside each other. A repeated member keeps its first place and takes the last value.

A map may stand for a value that is written out as a text: then its only member has the name
`embeddedName`, and holds a text that is the JSON of the value. A map that begins with that name
stands for nothing else.

`readWhole` wants nothing but the value; `readFirst` takes the first complete value and does not
look at what follows it.
-/

namespace RecordService.Json

/-- How many lists and maps may stand inside each other. -/
def depthLimit : Nat := 127

/-- The name of the member that holds a value as a text. -/
def embeddedName : String := "$serde_json::private::RawValue"

/-! ## Tokens that are values -/

/-- The value that a token is by itself. -/
def Token.value? : Token Quoted Scalar → Option Value
  | .scalar .null => some .null
  | .scalar (.bool b) => some (.bool b)
  | .scalar (.number l) => l.number?.map .number
  | .text (.text s) => some (.string s)
  | _ => none

/-- What a value is found to be. -/
def Found.ofValue : Value → Found
  | .null => .null
  | .bool b => .bool b
  | .number (.integer i) => .integer (String.ofList (Value.intText i.toInt))
  | .number (.real x) => .real (String.ofList (reals.text x))
  | .string s => .text s
  | .list _ => .list
  | .map _ => .map

/-- What the value that begins with a token is found to be. -/
def Token.found? : Token Quoted Scalar → Option Found
  | .beginList => some .list
  | .beginMap => some .map
  | t => t.value?.map Found.ofValue

/-- The text stops being JSON at a token, as it is not what is wanted. -/
def Lexeme.refused (x : Lexeme) (complaint : Complaint) : Break :=
  ⟨complaint, x.here.drop 1⟩

/-- Why no value begins with a token. -/
def Lexeme.notValue (x : Lexeme) : Break :=
  match x.token with
  | .scalar (.broken why) => why
  | .text (.unreadable why) => why
  | .text (.broken why) => why
  | .scalar (.number _) => ⟨.largeNumber, x.after⟩
  | _ => x.refused .noValue

/-! ## The machine -/

namespace Reader

/-- An open list or map, at the place where a value is being read. -/
inductive Frame where
  /-- The items before, last first. -/
  | list (items : List Value)
  /-- The members before, and the name of the value. -/
  | map (entries : Entries Value) (name : String)

/-- The step from an open list or map to the value that is being read. -/
def Frame.place : Frame → Place
  | .list items => .item items.length
  | .map _ name => .member name

/-- The way to the value that is being read. -/
def path (frames : List Frame) : List Place :=
  (frames.map Frame.place).reverse

/-- What is read next, inside the innermost open list or map. -/
inductive Position where
  | value
  /-- After `[`: a first item, or the end. -/
  | firstItem
  /-- After an item. -/
  | items (items : List Value)
  /-- After a comma between items. -/
  | item
  /-- After an opening brace: a first name, or the end. -/
  | firstName
  /-- After a comma between members. -/
  | name (entries : Entries Value)
  | colon (entries : Entries Value) (name : String)
  /-- After a member. -/
  | members (entries : Entries Value)
  /-- After the name of a value that is a text. -/
  | embeddedColon
  | embedded
  /-- After the text, which holds the value. -/
  | embeddedEnd (value : Value)

/-- Why the reading stops. -/
inductive Stop where
  | notJson (why : Break)
  /-- Something else stands where an embedded text is wanted. -/
  | notEmbedded (path : List Place) (found : Found) (rest : List UInt8)
  /-- An embedded text holds no value. -/
  | embedded (path : List Place) (fault : Fault)

/-- The fault of a text in which the reading stops. -/
def Stop.fault (text : List UInt8) : Stop → Fault
  | .notJson why => ⟨none, .notJson why.complaint, .before text why.rest⟩
  | .notEmbedded path found rest => ⟨some path, .notEmbedded found, .before text rest⟩
  | .embedded path fault => { fault with path := some path }

/-- What a token leads to. -/
inductive Progress where
  | inside (frames : List Frame) (position : Position)
  | done (value : Value)

/-- A value is complete: it goes into the innermost open list or map. -/
def complete (v : Value) : List Frame → Progress
  | [] => .done v
  | .list items :: frames => .inside frames (.items (v :: items))
  | .map entries name :: frames => .inside frames (.members (Entries.put name v entries))

/-- A list or map begins, if there is room for it. -/
def enter (frames : List Frame) (position : Position) (x : Lexeme) : Except Stop Progress :=
  if frames.length < depthLimit then .ok (.inside frames position)
  else .error (.notJson (x.refused .tooDeep))

/-- A value begins. -/
def beginValue (frames : List Frame) (x : Lexeme) : Except Stop Progress :=
  match x.token with
  | .beginList => enter frames .firstItem x
  | .beginMap => enter frames .firstName x
  | t =>
    match t.value? with
    | some v => .ok (complete v frames)
    | none => .error (.notJson x.notValue)

/-- The name of a member. -/
def readName (x : Lexeme) : Except Stop String :=
  match x.token with
  | .text (.text name) => .ok name
  | .text (.unreadable why) => .error (.notJson why)
  | .text (.broken why) => .error (.notJson why)
  | _ => .error (.notJson (x.refused .noName))

/-- The value that an embedded text holds. -/
def readEmbedded (inner : String → Except Fault Value) (path : List Place) (x : Lexeme) :
    Except Stop Value :=
  match x.token with
  | .text (.text s) => (inner s).mapError (.embedded path)
  | t =>
    match t.found? with
    | some found =>
      let rest := match found with
        | .list | .map => x.here
        | _ => x.after
      .error (.notEmbedded (path ++ [.member embeddedName]) found rest)
    | none => .error (.notJson x.notValue)

/-- One token; `inner` reads the texts that are embedded. -/
def advance (inner : String → Except Fault Value) (frames : List Frame) (position : Position)
    (x : Lexeme) : Except Stop Progress :=
  let refused (complaint : Complaint) : Except Stop Progress :=
    .error (.notJson (x.refused complaint))
  match position, x.token with
  | .value, _ => beginValue frames x
  | .firstItem, .endList => .ok (complete (.list []) frames)
  | .firstItem, _ => beginValue (.list [] :: frames) x
  | .items items, .comma => .ok (.inside (.list items :: frames) .item)
  | .items items, .endList => .ok (complete (.list items.reverse) frames)
  | .items _, _ => refused .noItemEnd
  | .item, .endList => refused .commaAtEnd
  | .item, _ => beginValue frames x
  | .firstName, .endMap => .ok (complete (.map []) frames)
  | .firstName, _ => do
    let name ← readName x
    pure (.inside frames (if name = embeddedName then .embeddedColon else .colon [] name))
  | .name _, .endMap => refused .commaAtEnd
  | .name entries, _ => do
    let name ← readName x
    pure (.inside frames (.colon entries name))
  | .colon entries name, .colon => .ok (.inside (.map entries name :: frames) .value)
  | .colon .., _ => refused .noColon
  | .members entries, .comma => .ok (.inside frames (.name entries))
  | .members entries, .endMap => .ok (complete (.map entries) frames)
  | .members _, _ => refused .noMemberEnd
  | .embeddedColon, .colon => .ok (.inside frames .embedded)
  | .embeddedColon, _ => refused .noColon
  | .embedded, _ => do
    let v ← readEmbedded inner (path frames) x
    pure (.inside frames (.embeddedEnd v))
  | .embeddedEnd v, .endMap => .ok (complete v frames)
  | .embeddedEnd _, .comma => refused .commaAtEnd
  | .embeddedEnd _, _ => refused .trailing

/-- What is missing where the text ends. -/
def Position.ended : Position → Complaint
  | .firstItem | .items _ => .endsInList
  | .firstName | .colon .. | .members _ | .embeddedColon | .embeddedEnd _ => .endsInMap
  | .value | .item | .name _ | .embedded => .endsInValue

/-- Reads on from a position to the end of the outermost value. -/
def readFrom (inner : String → Except Fault Value) (frames : List Frame) (position : Position) :
    List Lexeme → Except Stop (Value × List Lexeme)
  | [] => .error (.notJson ⟨position.ended, []⟩)
  | x :: xs =>
    match advance inner frames position x with
    | .error stop => .error stop
    | .ok (.done v) => .ok (v, xs)
    | .ok (.inside frames position) => readFrom inner frames position xs

/-- A value that nothing follows. -/
def alone : Value × List Lexeme → Except Stop Value
  | (v, []) => .ok v
  | (_, x :: _) => .error (.notJson (x.refused .trailing))

/-- The value of a text in which no more than `levels` texts are embedded in each other. -/
def readWithin : Nat → List UInt8 → Except Fault Value
  | 0, _ => .error ⟨none, .notJson .tooDeep, ⟨1, 0⟩⟩
  | levels + 1, bs =>
    let inner (s : String) := readWithin levels s.toUTF8.toList
    (readFrom inner [] .value (lexemes bs) >>= alone).mapError (Stop.fault bs)

end Reader

/-! ## Texts -/

/-- The value of a text that holds nothing else. An embedded text is shorter than the text around
it, so as many of them as there are octets are enough. -/
def readWhole (bs : List UInt8) : Except Fault Value :=
  Reader.readWithin (bs.length + 1) bs

/-- The first complete value of a text; what follows it is ignored. -/
def readFirst (bs : List UInt8) : Except Fault Value :=
  ((Reader.readFrom (fun s => readWhole s.toUTF8.toList) [] .value (lexemes bs)).map (·.1)).mapError
    (Reader.Stop.fault bs)

end RecordService.Json
