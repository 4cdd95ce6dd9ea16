import RecordService.Expression.Placeholder
import RecordService.Record
/-!
# Partial updates

A partial update sets the attributes of a body in one record and leaves the others alone. It is
compiled into a clause of assignments between placeholders, with one table for the names and one for
the values. The key attribute is dropped from the body when it repeats the key, and refused when it
would change it.
-/

namespace RecordService.Expression

structure Update where
  key : Key
  /-- The clause, such as `SET #a = :a, #b = :b`. -/
  clause : String
  /-- Placeholder and name, in the order of the clause. -/
  nameAliases : Entries String
  /-- Placeholder and value, in the order of the clause. -/
  valueAliases : Entries Value

namespace Update

/-- The attributes that are set, in the order of the clause. -/
def assignments (u : Update) : Attributes :=
  (u.nameAliases.map (·.2)).zip (u.valueAliases.map (·.2))

/-- The placeholder kept for the key attribute. -/
def keyPlaceholder (u : Update) : String :=
  namePlaceholder (token u.key.name)

/-- What has been compiled of a body: who owns each token, the terms (last first), the tables. -/
structure Draft where
  owners : Entries String
  terms : List String
  nameAliases : Entries String
  valueAliases : Entries Value

/-- Adds the assignment of one attribute. -/
def Draft.assign (draft : Draft) (name : String) (value : Value) : Except Error Draft := do
  let token ← token? name
  let forName := namePlaceholder token
  match Entries.find? token draft.owners with
  | some first => throw (.aliasCollision first name forName)
  | none =>
    let forValue := valuePlaceholder token
    pure {
      owners := Entries.put token name draft.owners
      terms := (forName ++ " = " ++ forValue) :: draft.terms
      nameAliases := Entries.put forName name draft.nameAliases
      valueAliases := Entries.put forValue value draft.valueAliases }

/-- The assignments of all attributes, in order. -/
def Draft.assignAll (draft : Draft) : Attributes → Except Error Draft
  | [] => .ok draft
  | (name, value) :: rest => do
    let draft ← draft.assign name value
    draft.assignAll rest

/-- The attributes of a body that are to be set: all but the key attribute, which may only repeat
the key. -/
def withoutKey (key : Key) (body : Attributes) : Except Error Attributes :=
  match Entries.find? key.name body with
  | none => .ok body
  | some (.string value) =>
    if value = key.value then .ok (Entries.erase key.name body)
    else .error (.validation (.keyChanged key.name))
  | some _ => .error (.validation (.keyChanged key.name))

/-- Compiles a body into the update of the record under `key`; the attributes named in `readOnly`
may not be set. -/
def compile (key : Key) (readOnly : List String) (body : Attributes) : Except Error Update := do
  let body ← withoutKey key body
  match (Entries.names body).find? readOnly.contains with
  | some name => throw (.readOnlyAttribute name)
  | none =>
    if body.isEmpty then throw (.emptyUpdate key.name)
    let reserved ← token? key.name
    let draft ← Draft.assignAll ⟨[(reserved, key.name)], [], [], []⟩ body
    pure {
      key := key
      clause := "SET " ++ String.intercalate ", " draft.terms.reverse
      nameAliases := draft.nameAliases
      valueAliases := draft.valueAliases }

end Update

end RecordService.Expression
