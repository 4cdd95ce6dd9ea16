import RecordService.Store.Command
import RecordService.Table.Reply
import RecordService.Text.Blank
/-!
# The store in a remote table

Each store command is run against a table whose replies are given, one for each request; when there
is none left, the table does not answer. What a command comes to is told with the requests that were
sent for it. A scan asks for page after page, and ends with the first page or item that fails, with
a page that names no last key, or with one that names the key it was asked to start after.

No request can be made to a table whose name is blank, and none that starts after a key with a cell
of a kind that is not known.
-/

namespace RecordService.Store

open Expression Table

/-- A table, and the attribute that identifies its items. -/
structure Remote where
  tableName : String
  keyAttribute : String
deriving DecidableEq, Repr

namespace Remote

/-- The error that a reply comes to where another was asked for. -/
def fault : Reply → StoreError
  | .failed fault => .backend fault
  | _ => .backend .service

/-- The record in a reply. -/
def found (m : Remote) (key : Key) : Reply → Outcome
  | .item (some item) => (item.record m.keyAttribute).map .record
  | .item none => .error (.notFound key)
  | reply => .error (fault reply)

/-- What a reply to a write says. -/
def written : Reply → Outcome
  | .done => .ok .done
  | reply => .error (fault reply)

/-- What a reply to an update says: without the item, there is no record. -/
def updated (key : Key) : Reply → Outcome
  | .refused => .error (.notFound key)
  | reply => written reply

/-- The records of a page, and the key to start the next one after. -/
def page (m : Remote) (start : Option Item) : Reply → Except StoreError (List Record × Option Item)
  | .page items last => do
    let records ← items.mapM fun item => item.record m.keyAttribute
    let again := match start, last with
      | some start, some last => last.same start
      | _, _ => false
    pure (records, last.filter fun last => !last.isEmpty && !again)
  | reply => .error (fault reply)

/-- The records of all pages after a key, and the requests for them. -/
def scanFrom (m : Remote) (filter : Option Input) (start : Option Item) :
    List Reply → Except StoreError (List Record) × List Request
  | [] => (.error (.backend .dispatch), [.scan filter start])
  | reply :: replies =>
    match m.page start reply with
    | .error e => (.error e, [.scan filter start])
    | .ok (records, none) => (.ok records, [.scan filter start])
    | .ok (records, some last) =>
      if last.isKnown then
        let (rest, requests) := m.scanFrom filter (some last) replies
        (rest.map (records ++ ·), .scan filter start :: requests)
      else (.error (.backend .request), [.scan filter start])

/-- The reply to a single request. -/
def first (replies : List Reply) : Reply :=
  replies.headD (.failed .dispatch)

/-- What a command comes to with these replies, and the requests that are sent for it. -/
def run (m : Remote) (replies : List Reply) : Command → Outcome × List Request
  | .get key => (m.found key (first replies), [.getItem (Item.ofKey key)])
  | .create r => (written (first replies), [.putItem (Item.ofRecord r)])
  | .update u => (updated u.key (first replies), [Request.ofUpdate u])
  | .delete key => (written (first replies), [.deleteItem (Item.ofKey key)])
  | .scan filter =>
    let (records, requests) := m.scanFrom (filter.map Input.ofFilter) none replies
    (records.map .records, requests)

/-- The operation of the requests that a command sends. -/
def operation : Command → Operation
  | .get _ => .getItem
  | .create _ => .putItem
  | .update _ => .updateItem
  | .delete _ => .deleteItem
  | .scan _ => .scan

/-- What a command comes to with what came back for its requests, if requests can be made. -/
def exchange (m : Remote) (deliveries : List Delivery) (c : Command) : Outcome × List Request :=
  if Text.allBlank m.tableName then (.error (.backend .request), [])
  else m.run (deliveries.map (Reply.ofDelivery (operation c))) c

end Remote

end RecordService.Store
