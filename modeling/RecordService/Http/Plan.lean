import RecordService.Http.MediaType
import RecordService.Http.Message
import RecordService.Http.Route
import RecordService.Identity.Reader
import RecordService.Json.Reader
import RecordService.Settings.Basic
import RecordService.Store.Command
/-!
# Plans

What is to be done for a request, found out before the store or the identity provider is asked: an
answer, one store command, or one identity request. All that can be wrong with a request itself is
found here, so a refused request has no effect. A body is looked at for its announced type first,
then for its length, then for what it holds.
-/

namespace RecordService.Http

open Expression

inductive Plan where
  | answer (response : Response)
  | command (command : Store.Command)
  | identity (request : Identity.Request)

/-- How many octets a body may have. -/
def bodyLimit : Nat := 2097152

namespace Request

/-- The octets of a body that is announced as JSON and is not too long. -/
def jsonBody (r : Request) : Except Error (List UInt8) :=
  if !(r.contentType.any MediaType.isJson) then .error (.validation .notJsonType)
  else if bodyLimit < r.body.length then .error (.validation .bodyTooLong)
  else .ok r.body

/-- The value in a body. -/
def value (r : Request) : Except Error Value := do
  match Json.readFirst (← r.jsonBody) with
  | .ok v => pure v
  | .error fault => throw (.validation (.body fault))

/-- The identity request in a body. -/
def identity (r : Request) (operation : Identity.Operation) : Except Error Identity.Request := do
  match operation.read (← r.jsonBody) with
  | .ok request => pure request
  | .error fault => throw (.validation (.form fault))

end Request

namespace Plan

def ofCommand : Except Error Store.Command → Plan
  | .ok c => .command c
  | .error e => .answer (.ofError e)

/-- The key value that is written in a path: percent-encoded UTF-8. -/
def keyText? (octets : List UInt8) : Option String :=
  (Text.Utf8.decode? (Text.Percent.decode octets)).map String.ofList

/-- What is planned for a key in a path. -/
def withKey (s : Settings) (octets : List UInt8) (plan : Key → Plan) : Plan :=
  match keyText? octets with
  | some value => plan ⟨s.keyAttribute, value⟩
  | none => .answer .badPathKey

/-- The record with the time of its creation, whatever it carried under that name. -/
def stamped (s : Settings) (now : String) (r : Record) : Record :=
  match s.createdAt with
  | some name => { r with attributes := Entries.put name (.string now) r.attributes }
  | none => r

/-- Creates the record in the body. -/
def create (s : Settings) (now : String) (r : Request) : Except Error Store.Command := do
  let record ← Record.ofBody s.keyAttribute (← r.value)
  pure (.create (stamped s now record))

/-- Sets the attributes in the body; the time of creation may not be set. -/
def update (s : Settings) (r : Request) (key : Key) : Except Error Store.Command := do
  let attributes ← Attributes.ofBody (← r.value)
  pure (.update (← Update.compile key s.createdAt.toList attributes))

/-- The filter that the parameters ask for. -/
def filter (s : Settings) : List (String × String) → Except Error (Option Filter)
  | [] =>
    match s.defaultFilter with
    | some name => (Filter.ofParameter name none).map some
    | none => .ok none
  | [(name, value)] => (Filter.ofParameter name (some value)).map some
  | _ => .error (.validation .manyFilters)

/-- The plan for what a request asks for. -/
def ofAction (s : Settings) (now : String) (r : Request) : Action → Plan
  | .health => .answer .healthy
  | .scan => ofCommand ((filter s (Target.ofText r.target).parameters).map .scan)
  | .create => ofCommand (create s now r)
  | .get octets => withKey s octets fun key => .command (.get key)
  | .update octets => withKey s octets fun key => ofCommand (update s r key)
  | .delete octets => withKey s octets fun key => .command (.delete key)
  | .identity operation =>
    match r.identity operation with
    | .ok request => .identity request
    | .error e => .answer (.ofError e)

end Plan

end RecordService.Http
