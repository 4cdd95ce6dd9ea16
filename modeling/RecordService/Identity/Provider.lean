import RecordService.Error
import RecordService.Identity.Request
import RecordService.Value
/-!
# The identity provider

What the service knows of the provider: it replies to a request with a status and a payload, or it
cannot be reached.
-/

namespace RecordService.Identity

/-- What the provider answered. -/
structure Reply where
  status : Nat
  body : Value

/-- What the provider replies to requests. -/
abbrev Provider := Request → Except IdentityError Reply

end RecordService.Identity
