import RecordService.Record
import RecordService.Table.Cell
/-!
# Items of the table

An item is one flat map of cells: a record's key attribute stands in it among the attributes. It is
a record again if all its cells hold values and the key attribute is a text.
-/

namespace RecordService.Table

/-- The cells of a record, or of a key, by name. -/
abbrev Item := Entries Cell

namespace Item

/-- The item of a key alone. -/
def ofKey (key : Key) : Item :=
  [(key.name, .text key.value)]

/-- The item of a record. An attribute with the name of the key takes its place. -/
def ofRecord (r : Record) : Item :=
  Entries.putAll (Cell.ofMembers [] r.attributes) (ofKey r.key)

/-- The record an item holds, under the key attribute of that name. -/
def record (keyName : String) (item : Item) : Except StoreError Record :=
  match Cell.members [] item with
  | .error fault => .error (.conversion fault)
  | .ok attributes =>
    match Key.takeFrom keyName attributes with
    | (some key, attributes) => .ok ⟨key, attributes⟩
    | (none, _) => .error (.malformedItem (.noKey keyName))

/-- The item as it is sent. -/
def wire (item : Item) : Value :=
  .map (Cell.wireMembers [] item)

/-- The item can be sent. -/
def isKnown (item : Item) : Bool :=
  Cell.membersKnown item

/-- The item that is received; it takes one level of the room there is, beside its cells. -/
def ofTree? (room : Nat) : Notation.Tree → Option Item
  | .map ms =>
    match room with
    | 0 => none
    | room + 1 => Cell.ofNamed? room [] ms
  | _ => none

/-- Equality of items, in any order of their cells. -/
def same (a b : Item) : Bool :=
  wire a == wire b

end Item

end RecordService.Table
