import RecordService.Table.Request
import RecordService.Table.Shape
/-!
# Replies of the table

What came back for a request, and what it says. An answer with a status from 200 to 299 says what
its body says, if the body has the shape that the operation's answers have; an empty body is an
empty object. Any other answer is an error, whose kind is found in a header or else in the body.
Only one kind is told apart: that the condition of an update does not hold.
-/

namespace RecordService.Table

open Notation

/-- What came back for a request. -/
inductive Delivery where
  /-- An answer; `errorType` is the header that names the kind of an error. -/
  | answered (status : Nat) (errorType : Option String) (body : List UInt8)
  /-- No answer. -/
  | failed

/-- What a delivery says. -/
inductive Reply where
  | item (item : Option Item)
  /-- The items of a page, and the key of the last one, if there may be more. -/
  | page (items : List Item) (last : Option Item)
  | done
  /-- The condition of an update does not hold. -/
  | refused
  | failed (fault : BackendFault)

namespace Reply

/-! ## Members of an answer -/

/-- How many levels there are inside an answer. -/
def room : Nat := 127

/-- The last member of a name. -/
def last? (name : String) (ms : List (String × Tree)) : Option Tree :=
  (ms.reverse.find? fun m => text? m.1 == some name).map (·.2)

def item? (name : String) (ms : List (String × Tree)) : Option Item :=
  (last? name ms).bind (Item.ofTree? room)

def items (name : String) (ms : List (String × Tree)) : List Item :=
  match last? name ms with
  | some (.list ts) => ts.filterMap (Item.ofTree? (room - 1))
  | _ => []

/-! ## Answers -/

/-- The shapes of the members of an operation's answers. -/
def shapes : Operation → List (String × Shape)
  | .getItem => [("Item", .item), ("ConsumedCapacity", Shape.capacity)]
  | .scan =>
    [("Items", .list .item), ("Count", .count), ("ScannedCount", .count),
      ("LastEvaluatedKey", .item), ("ConsumedCapacity", Shape.capacity)]
  | .putItem | .updateItem | .deleteItem =>
    [("Attributes", .item), ("ConsumedCapacity", Shape.capacity),
      ("ItemCollectionMetrics", Shape.collection)]

/-- What the members of an operation's answer say. -/
def ofMembers (ms : List (String × Tree)) : Operation → Reply
  | .getItem => .item (item? "Item" ms)
  | .scan => .page (items "Items" ms) (item? "LastEvaluatedKey" ms)
  | .putItem | .updateItem | .deleteItem => .done

/-- What the answer of an operation says. -/
def ofAnswer (operation : Operation) (body : List UInt8) : Reply :=
  match members? body with
  | some ms =>
    if Shape.fitsMembers room (shapes operation) ms then ofMembers ms operation
    else .failed .service
  | none => .failed .service

/-! ## Errors -/

/-- The last text under a name as it is written. -/
def textUnder? (name : String) (ms : List (String × Tree)) : Option String :=
  ms.reverse.findSome? fun
    | (n, .text written) => if n = name then text? written else none
    | _ => none

/-- The kind of an error without the names of spaces before `#` and the address from `:` on. -/
def bareKind (kind : String) : String :=
  let cs := kind.toList.takeWhile (· ≠ ':')
  String.ofList (if cs.contains '#' then (cs.dropWhile (· ≠ '#')).drop 1 else cs)

/-- The members that describe an error are texts that can be read, where they are texts; the others
can be passed over. Their names are looked for as they are written. -/
def isReadable (ms : List (String × Tree)) : Bool :=
  ms.all fun
    | (name, .text written) =>
      !(["code", "__type", "message", "Message", "errorMessage"].contains name)
        || (text? written).isSome
    | (_, t) => isPassed t

/-- An error says that the condition of an update does not hold. -/
def isRefusal (errorType : Option String) (body : List UInt8) : Bool :=
  match members? body with
  | some ms =>
    isReadable ms && Shape.fitsMembers room [("message", .text), ("Item", .item)] ms
      && (errorType <|> textUnder? "code" ms <|> textUnder? "__type" ms).any
        (bareKind · == "ConditionalCheckFailedException")
  | none => false

/-- What came back for a request of an operation. -/
def ofDelivery (operation : Operation) : Delivery → Reply
  | .failed => .failed .dispatch
  | .answered status errorType body =>
    if 200 ≤ status ∧ status < 300 then ofAnswer operation body
    else if operation = .updateItem ∧ isRefusal errorType body then .refused
    else .failed .service

end Reply

end RecordService.Table
