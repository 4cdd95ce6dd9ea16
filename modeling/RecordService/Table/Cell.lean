import RecordService.Error
import RecordService.Json.Reader
import RecordService.Table.Notation
import RecordService.Text.Base64
/-!
# Cells of the table

A cell is a value together with its kind, as the table holds it. On the wire it is an object whose
one member names the kind. Every value has a cell; a cell has a value unless it holds octets, a
number that is none, a null that says it is not null, or something of a kind that is not known. Sets
are read as lists, and a map that begins with an embedded text is read as the value in it. The table
keeps no order in its maps: what they begin with is what happens to come first.
-/

namespace RecordService.Table

open Json

inductive Cell where
  | null (isNull : Bool)
  | bool (b : Bool)
  | number (numeral : String)
  | text (s : String)
  | list (items : List Cell)
  | map (members : List (String × Cell))
  | numbers (numerals : List String)
  | texts (items : List String)
  /-- Octets, in base64. -/
  | binary (octets : String)
  | binaries (items : List String)
  /-- Something of a kind that is not known; what it holds is lost. -/
  | unknown

namespace Cell

/-! ## From and to values -/

mutual

def ofValue : Value → Cell
  | .null => .null true
  | .bool b => .bool b
  | .number n => .number (Numeral.text n)
  | .string s => .text s
  | .list xs => .list (ofValues [] xs)
  | .map ms => .map (ofMembers [] ms)

/-- The cells of items, after those already `seen`, last first. -/
def ofValues (seen : List Cell) : List Value → List Cell
  | [] => seen.reverse
  | x :: xs => ofValues (ofValue x :: seen) xs

/-- The cells of members, after those already `seen`, last first. -/
def ofMembers (seen : List (String × Cell)) : List (String × Value) → List (String × Cell)
  | [] => seen.reverse
  | (n, x) :: ms => ofMembers ((n, ofValue x) :: seen) ms

end

theorem ofValues_eq (xs : List Value) (seen : List Cell) :
    ofValues seen xs = seen.reverse ++ xs.map ofValue := by
  induction xs generalizing seen with
  | nil => simp [ofValues]
  | cons x xs ih => simp [ofValues, ih]

theorem ofMembers_eq (ms : List (String × Value)) (seen : List (String × Cell)) :
    ofMembers seen ms = seen.reverse ++ ms.map fun (n, x) => (n, ofValue x) := by
  induction ms generalizing seen with
  | nil => simp [ofMembers]
  | cons m ms ih => simp [ofMembers, ih]

/-- The cell of a text that is embedded in a map of these members; those after the first one are not
looked at. -/
def embedded? : List (String × Cell) → Option Cell
  | (name, c) :: _ => if name = embeddedName then some c else none
  | [] => none

/-- The value that an embedded text holds. -/
def embeddedValue : Cell → Except ConversionFault Value
  | .text s => (readWhole s.toUTF8.toList).mapError .embedded
  | _ => .error .notEmbedded

/-- The value of a numeral; one that is not finite is null. -/
def numberValue (numeral : String) : Except ConversionFault Value :=
  match Numeral.read? numeral with
  | some (.number n) => .ok (.number n)
  | some .notFinite => .ok .null
  | none => .error (.notNumber numeral)

mutual

/-- The value a cell holds. -/
def value : Cell → Except ConversionFault Value
  | .null true => .ok .null
  | .null false => .error .nullFalse
  | .bool b => .ok (.bool b)
  | .number numeral => numberValue numeral
  | .text s => .ok (.string s)
  | .list items => (values [] items).map .list
  | .map ms =>
    match embedded? ms with
    | some c => embeddedValue c
    | none => (members [] ms).map .map
  | .numbers numerals => (numerals.mapM numberValue).map .list
  | .texts items => .ok (.list (items.map .string))
  | .binary _ => .error .binary
  | .binaries items => if items.isEmpty then .ok (.list []) else .error .binary
  | .unknown => .error .unknownKind

/-- The values of items, after those already `seen`, last first. -/
def values (seen : List Value) : List Cell → Except ConversionFault (List Value)
  | [] => .ok seen.reverse
  | c :: cs =>
    match value c with
    | .ok v => values (v :: seen) cs
    | .error fault => .error fault

/-- The values of members, after those already `seen`, last first. -/
def members (seen : List (String × Value)) :
    List (String × Cell) → Except ConversionFault (Entries Value)
  | [] => .ok seen.reverse
  | (n, c) :: ms =>
    match value c with
    | .ok v => members ((n, v) :: seen) ms
    | .error fault => .error fault

end

theorem values_eq (cs : List Cell) (seen : List Value) :
    values seen cs = (cs.mapM value).map (seen.reverse ++ ·) := by
  induction cs generalizing seen with
  | nil => simp [values, pure, Except.pure, Except.map]
  | cons c cs ih =>
    rw [values, List.mapM_cons]
    cases h : value c with
    | error e => rfl
    | ok v =>
      simp only [ih, bind, Except.bind]
      cases cs.mapM value <;> simp [Except.map, pure, Except.pure]

/-! ## On the wire -/

/-- An object whose one member names a kind. -/
def typed (kind : String) (content : Value) : Value :=
  .map [(kind, content)]

def textList (items : List String) : Value :=
  .list (items.map .string)

mutual

/-- The cell as it is sent. -/
def wire : Cell → Value
  | .null isNull => typed "NULL" (.bool isNull)
  | .bool b => typed "BOOL" (.bool b)
  | .number numeral => typed "N" (.string numeral)
  | .text s => typed "S" (.string s)
  | .list items => typed "L" (.list (wireItems [] items))
  | .map ms => typed "M" (.map (wireMembers [] ms))
  | .numbers numerals => typed "NS" (textList numerals)
  | .texts items => typed "SS" (textList items)
  | .binary octets => typed "B" (.string octets)
  | .binaries items => typed "BS" (textList items)
  | .unknown => .map []

/-- Items as they are sent, after those already `seen`, last first. -/
def wireItems (seen : List Value) : List Cell → List Value
  | [] => seen.reverse
  | c :: cs => wireItems (wire c :: seen) cs

/-- Members as they are sent, after those already `seen`, last first. -/
def wireMembers (seen : List (String × Value)) : List (String × Cell) → List (String × Value)
  | [] => seen.reverse
  | (n, c) :: ms => wireMembers ((n, wire c) :: seen) ms

end

theorem wireItems_eq (cs : List Cell) (seen : List Value) :
    wireItems seen cs = seen.reverse ++ cs.map wire := by
  induction cs generalizing seen with
  | nil => simp [wireItems]
  | cons c cs ih => simp [wireItems, ih]

theorem wireMembers_eq (ms : List (String × Cell)) (seen : List (String × Value)) :
    wireMembers seen ms = seen.reverse ++ ms.map fun (n, c) => (n, wire c) := by
  induction ms generalizing seen with
  | nil => simp [wireMembers]
  | cons m ms ih => simp [wireMembers, ih]

mutual

/-- The cell can be sent: nothing in it is of a kind that is not known. -/
def isKnown : Cell → Bool
  | .list items => areKnown items
  | .map ms => membersKnown ms
  | .unknown => false
  | _ => true

def areKnown : List Cell → Bool
  | [] => true
  | c :: cs => isKnown c && areKnown cs

def membersKnown : List (String × Cell) → Bool
  | [] => true
  | (_, c) :: ms => isKnown c && membersKnown ms

end

/-! ## Received

A cell, and each list, set or map that it holds, takes one level of the room there is. -/

open Notation

/-- The content of a text. -/
def content? : Tree → Option String
  | .text written => text? written
  | _ => none

/-- Octets are taken as they are written, without a look at escapes. -/
def octets? : Tree → Option String
  | .text written => if Text.Base64.isCanonical written.toList then some written else none
  | _ => none

/-- The items of a set. -/
def set? (room : Nat) (item? : Tree → Option String) : Tree → Option (List String)
  | .list items => if room = 0 then none else items.mapM item?
  | _ => none

/-- The cell of a kind that holds no other cells, with this content. -/
def plain? (room : Nat) (kind : String) (t : Tree) : Option Cell :=
  match kind, t with
  | "BOOL", .scalar (.bool b) => some (.bool b)
  | "NULL", .scalar (.bool b) => some (.null b)
  | "S", t => (content? t).map .text
  | "N", t => (content? t).map .number
  | "B", t => (octets? t).map .binary
  | "SS", t => (set? room content? t).map .texts
  | "NS", t => (set? room content? t).map .numbers
  | "BS", t => (set? room octets? t).map .binaries
  | "BOOL", _ | "NULL", _ | "L", _ | "M", _ => none
  | _, t => if isPassed t then some .unknown else none

mutual

/-- The cell that is received: an object of which one member is not null, and names a kind. -/
def ofTree? (room : Nat) : Tree → Option Cell
  | .map ms =>
    match room with
    | 0 => none
    | room + 1 => ofKinds? room none ms
  | _ => none

/-- The cell of the members of an object, after the one that may be `seen`. A member that is null
does not count, nor does the name of a type. -/
def ofKinds? (room : Nat) (seen : Option Cell) : List (String × Tree) → Option Cell
  | [] => seen
  | (name, t) :: ms =>
    if isNull t then ofKinds? room seen ms
    else match text? name with
      | none => none
      | some kind =>
        if kind = "__type" then if isPassed t then ofKinds? room seen ms else none
        else match seen, ofKind? room kind t with
          | none, some c => ofKinds? room (some c) ms
          | _, _ => none

/-- The cell of a kind with this content. -/
def ofKind? (room : Nat) (kind : String) : Tree → Option Cell
  | .list items =>
    if kind = "L" then
      match room with
      | 0 => none
      | room + 1 => (ofTrees? room [] items).map .list
    else plain? room kind (.list items)
  | .map ms =>
    if kind = "M" then
      match room with
      | 0 => none
      | room + 1 => (ofNamed? room [] ms).map .map
    else plain? room kind (.map ms)
  | t => plain? room kind t

/-- The cells of items, after those already `seen`, last first. -/
def ofTrees? (room : Nat) (seen : List Cell) : List Tree → Option (List Cell)
  | [] => some seen.reverse
  | t :: ts =>
    match ofTree? room t with
    | some c => ofTrees? room (c :: seen) ts
    | none => none

/-- The cells of named members, written one after another over those already there. -/
def ofNamed? (room : Nat) (entries : Entries Cell) : List (String × Tree) → Option (Entries Cell)
  | [] => some entries
  | (name, t) :: ms =>
    match text? name, ofTree? room t with
    | some name, some c => ofNamed? room (Entries.put name c entries) ms
    | _, _ => none

end

end Cell

end RecordService.Table
