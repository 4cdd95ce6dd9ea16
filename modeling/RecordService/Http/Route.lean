import RecordService.Http.Target
import RecordService.Identity.Request
/-!
# Routes

The paths of the service, and what each method asks for on them. A path is matched as it is written;
a last slash makes it another path. `HEAD` asks for what `GET` asks for.
-/

namespace RecordService.Http

open Identity (Operation)

inductive Route where
  | health
  | records
  /-- The record whose key is written so in the path. -/
  | record (key : List UInt8)
  | identity (operation : Operation)
deriving DecidableEq, Repr

/-- What a request asks for. -/
inductive Action where
  | health
  | scan
  | create
  | get (key : List UInt8)
  | update (key : List UInt8)
  | delete (key : List UInt8)
  | identity (operation : Operation)
deriving DecidableEq, Repr

namespace Route

/-- The last piece of the path of an identity operation. -/
def operationPath : Operation → String
  | .register => "register"
  | .confirmRegistration => "confirm"
  | .authenticate => "login"
  | .refresh => "refresh"
  | .requestPasswordReset => "forgot-password"
  | .confirmPasswordReset => "confirm-forgot-password"

def operations : List Operation :=
  [.register, .confirmRegistration, .authenticate, .refresh, .requestPasswordReset,
    .confirmPasswordReset]

/-- The route of a path. -/
def ofPath? (path : List UInt8) : Option Route :=
  match Target.pieces path with
  | some [name] =>
    if name = Target.ascii "health" then some .health
    else if name = Target.ascii "records" then some .records
    else none
  | some [scope, name] =>
    if scope = Target.ascii "records" then if name.isEmpty then none else some (.record name)
    else if scope = Target.ascii "identity" then
      (operations.find? fun op => Target.ascii (operationPath op) = name).map .identity
    else none
  | _ => none

/-- The method asks to read. -/
def isReading (method : String) : Bool := method == "GET" || method == "HEAD"

/-- What a method asks for, if the route allows it. -/
def action? (method : String) : Route → Option Action
  | .health => if isReading method then some .health else none
  | .records =>
    if isReading method then some .scan
    else if method = "POST" then some .create
    else none
  | .record key =>
    if isReading method then some (.get key)
    else if method = "PUT" then some (.update key)
    else if method = "DELETE" then some (.delete key)
    else none
  | .identity operation => if method = "POST" then some (.identity operation) else none

/-- The methods that the route allows. -/
def allowed : Route → String
  | .health => "GET,HEAD"
  | .records => "GET,HEAD,POST"
  | .record _ => "GET,HEAD,PUT,DELETE"
  | .identity _ => "POST"

end Route

end RecordService.Http
