import RecordService.Expression.Filter
import RecordService.Expression.Update
import RecordService.Table.Item
/-!
# Requests to the table

Each store command is a request to the table, or for a scan one request for every page. Updates and
filters are sent as expressions with their two tables of placeholders. An update is on the condition
that the item exists, so it never makes one.
-/

namespace RecordService.Table

open Expression

/-- An expression between placeholders, and what they stand for. -/
structure Input where
  expression : String
  names : Entries String
  values : Entries Cell

namespace Input

/-- The clause of an update. -/
def ofUpdate (u : Update) : Input :=
  ⟨u.clause, u.nameAliases, Cell.ofMembers [] u.valueAliases⟩

/-- The expression of a filter. -/
def ofFilter (f : Filter) : Input :=
  ⟨f.expression, [(f.forName, f.name)], [(f.forValue, Cell.ofValue f.value)]⟩

/-- The members of a request that carry the two tables. -/
def tables (input : Input) : List (String × Value) :=
  [("ExpressionAttributeNames", .map (input.names.map fun (p, name) => (p, .string name))),
    ("ExpressionAttributeValues", .map (Cell.wireMembers [] input.values))]

end Input

inductive Operation where
  | getItem
  | putItem
  | updateItem
  | deleteItem
  | scan
deriving DecidableEq, Repr

def Operation.name : Operation → String
  | .getItem => "GetItem"
  | .putItem => "PutItem"
  | .updateItem => "UpdateItem"
  | .deleteItem => "DeleteItem"
  | .scan => "Scan"

inductive Request where
  | getItem (key : Item)
  | putItem (item : Item)
  | updateItem (key : Item) (condition : String) (update : Input)
  | deleteItem (key : Item)
  /-- One page: the items after `start`, if there is one. -/
  | scan (filter : Option Input) (start : Option Item)

namespace Request

def operation : Request → Operation
  | .getItem _ => .getItem
  | .putItem _ => .putItem
  | .updateItem .. => .updateItem
  | .deleteItem _ => .deleteItem
  | .scan .. => .scan

/-- The request of an update. The placeholder of the key, on which the condition stands, is added to
the names. -/
def ofUpdate (u : Update) : Request :=
  let input := Input.ofUpdate u
  .updateItem (Item.ofKey u.key) ("attribute_exists(" ++ u.keyPlaceholder ++ ")")
    { input with names := Entries.put u.keyPlaceholder u.key.name input.names }

/-- The members of the request's body beside the table. -/
def members : Request → List (String × Value)
  | .getItem key => [("Key", key.wire)]
  | .putItem item => [("Item", item.wire)]
  | .updateItem key condition update =>
    [("Key", key.wire), ("UpdateExpression", .string update.expression),
      ("ConditionExpression", .string condition)] ++ update.tables
  | .deleteItem key => [("Key", key.wire)]
  | .scan filter start =>
    (match filter with
      | some input => ("FilterExpression", .string input.expression) :: input.tables
      | none => [])
    ++ (match start with
      | some key => [("ExclusiveStartKey", key.wire)]
      | none => [])

/-- The body of the request to a table. -/
def body (tableName : String) (r : Request) : Value :=
  .map (("TableName", .string tableName) :: r.members)

end Request

end RecordService.Table
