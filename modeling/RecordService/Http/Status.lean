import RecordService.Error
import RecordService.Value
/-!
# Statuses and bodies of errors

What is wrong with a request is told to the caller; what is wrong with the store or the identity
provider is told in one fixed sentence each.
-/

namespace RecordService

/-- An error body: an object with the one member `error`. -/
def errorBody (message : String) : Value :=
  .map [("error", .string message)]

/-- The status an error is answered with. -/
def Error.status : Error → Nat
  | .store (.notFound _) => 404
  | .store _ => 500
  | .identity _ => 502
  | _ => 400

/-- What the caller is told of an error. -/
def Error.publicMessage (e : Error) : String :=
  match e with
  | .store (.notFound _) => e.message
  | .store _ => "the record store request failed"
  | .identity _ => "the identity provider could not be reached"
  | e => e.message

/-- The body an error is answered with. -/
def Error.body (e : Error) : Value :=
  errorBody e.publicMessage

end RecordService
