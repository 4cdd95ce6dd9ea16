import RecordService.Error
import RecordService.Value
/-!
# Records

A record is its key and every other attribute it has. A request body becomes a record if it is an
object without an empty name that has the key attribute as a non-empty text. A record is shown as
one flat object with the key first.
-/

namespace RecordService

/-- The attributes of a record besides its key, in insertion order. -/
abbrev Attributes := Entries Value

structure Record where
  key : Key
  attributes : Attributes

/-- Removes the attribute `name`, and gives the key it makes if it was a text. -/
def Key.takeFrom (name : String) (attributes : Attributes) : Option Key × Attributes :=
  (((Entries.find? name attributes).bind Value.string?).map (Key.mk name),
    Entries.erase name attributes)

/-- The attributes of a request body: an object none of whose members has the empty name. -/
def Attributes.ofBody (body : Value) : Except Error Attributes :=
  match body with
  | .map members =>
    if (Entries.find? "" members).isSome then .error (.invalidAttributeName "") else .ok members
  | _ => .error (.validation .bodyNotObject)

namespace Record

/-- The record of a request body that carries the key attribute `keyName`. -/
def ofBody (keyName : String) (body : Value) : Except Error Record := do
  let attributes ← Attributes.ofBody body
  match Entries.find? keyName attributes with
  | some (.string value) =>
    if value = "" then throw (.validation (.keyEmpty keyName))
    else pure ⟨⟨keyName, value⟩, Entries.erase keyName attributes⟩
  | _ => throw (.validation (.keyNotText keyName))

/-- An attribute by name, the key attribute included. -/
def get? (name : String) (r : Record) : Option Value :=
  if name = r.key.name then some (.string r.key.value) else Entries.find? name r.attributes

/-- The key and the attributes named; no names stand for all of them. -/
def project (names : List String) (r : Record) : Record :=
  if names.isEmpty then r
  else { r with attributes := r.attributes.filter fun e => names.contains e.1 }

/-- The record as one flat object, the key first. -/
def toValue (r : Record) : Value :=
  .map ((r.key.name, .string r.key.value) :: r.attributes)

end Record

end RecordService
