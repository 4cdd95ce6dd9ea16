import RecordService.Identity.Provider
import RecordService.Json.Printer
import RecordService.Json.Reader
/-!
# The user pool

The identity provider is a user pool, reached in the region that the pool's identifier starts with.
Each request is put into the provider's own shape, and its status and payload are handed on as they
come.
-/

namespace RecordService.Identity

open Json

structure UserPool where
  clientId : String
  endpoint : String
deriving DecidableEq, Repr

/-- One message to the provider. -/
structure Message where
  target : String
  contentType : String
  body : Value

/-- What became of a message: an answer, or none in time or at all. -/
inductive Delivery where
  | answered (status : Nat) (body : List UInt8)
  | failed (timedOut : Bool)

namespace UserPool

/-- The region of a pool: the identifier up to its first `_`, if neither side is empty. -/
def region? (poolId : String) : Option String :=
  let region := poolId.toList.takeWhile (· ≠ '_')
  let rest := (poolId.toList.dropWhile (· ≠ '_')).drop 1
  if region.isEmpty ∨ rest.isEmpty then none else some (String.ofList region)

/-- The pool with an identifier, as one of its clients reaches it. -/
def ofId (clientId poolId : String) : Except ProviderFault UserPool :=
  match region? poolId with
  | some region => .ok ⟨clientId, "https://cognito-idp." ++ region ++ ".amazonaws.com/"⟩
  | none => .error (.notUserPool poolId)

/-- The provider's name for an operation. -/
def action : Operation → String
  | .register => "SignUp"
  | .confirmRegistration => "ConfirmSignUp"
  | .authenticate | .refresh => "InitiateAuth"
  | .requestPasswordReset => "ForgotPassword"
  | .confirmPasswordReset => "ConfirmForgotPassword"

/-- An attribute of a user, if it has a value. -/
def userAttribute (name : String) : Option String → List Value
  | some value => [.map [("Name", .string name), ("Value", .string value)]]
  | none => []

/-- A request's members beside the client. -/
def members : Request → List (String × Value)
  | .register username password email phoneNumber =>
    [("Username", .string username), ("Password", .string password),
      ("UserAttributes",
        .list (userAttribute "email" email ++ userAttribute "phone_number" phoneNumber))]
  | .confirmRegistration username code =>
    [("Username", .string username), ("ConfirmationCode", .string code)]
  | .authenticate username password =>
    [("AuthFlow", .string "USER_PASSWORD_AUTH"),
      ("AuthParameters", .map [("USERNAME", .string username), ("PASSWORD", .string password)])]
  | .refresh token =>
    [("AuthFlow", .string "REFRESH_TOKEN_AUTH"),
      ("AuthParameters", .map [("REFRESH_TOKEN", .string token)])]
  | .requestPasswordReset username => [("Username", .string username)]
  | .confirmPasswordReset username code password =>
    [("Username", .string username), ("ConfirmationCode", .string code),
      ("Password", .string password)]

/-- The message that carries a request. -/
def message (pool : UserPool) (r : Request) : Message where
  target := "AWSCognitoIdentityProviderService." ++ action r.operation
  contentType := "application/x-amz-json-1.1"
  body := .map (("ClientId", .string pool.clientId) :: members r)

/-- The payload of an answer: the JSON it is as a whole, or else its text. -/
def payload (body : List UInt8) : Value :=
  match readWhole body with
  | .ok v => v
  | .error _ => .string (String.ofList (Text.Utf8.decodeLossy body))

/-- An answer with one of these statuses has no body. -/
def isBodiless (status : Nat) : Bool := status == 204 || status == 304

/-- What the provider's answer comes to. -/
def reply : Delivery → Except IdentityError Reply
  | .answered status body => .ok ⟨status, payload (if isBodiless status then [] else body)⟩
  | .failed timedOut => .error (.unreachable timedOut)

end UserPool

end RecordService.Identity
