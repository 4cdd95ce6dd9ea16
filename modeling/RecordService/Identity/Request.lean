/-!
# Identity requests

What a caller can ask of the identity provider. Each operation has one form: the fields of its
request in order, some under a second name too, and some not required.
-/

namespace RecordService.Identity

inductive Operation where
  | register
  | confirmRegistration
  | authenticate
  | refresh
  | requestPasswordReset
  | confirmPasswordReset
deriving DecidableEq, Repr

inductive Request where
  | register (username password : String) (email phoneNumber : Option String)
  | confirmRegistration (username confirmationCode : String)
  | authenticate (username password : String)
  | refresh (refreshToken : String)
  | requestPasswordReset (username : String)
  | confirmPasswordReset (username confirmationCode password : String)
deriving DecidableEq, Repr

def Request.operation : Request → Operation
  | .register .. => .register
  | .confirmRegistration .. => .confirmRegistration
  | .authenticate .. => .authenticate
  | .refresh .. => .refresh
  | .requestPasswordReset .. => .requestPasswordReset
  | .confirmPasswordReset .. => .confirmPasswordReset

/-- A field of a form, its other names, and whether it may be left out. -/
structure Field where
  name : String
  aliases : List String
  required : Bool
deriving DecidableEq, Repr

/-- A field that must be there. -/
def Field.plain (name : String) : Field := ⟨name, [], true⟩

structure Form where
  title : String
  fields : List Field
deriving DecidableEq, Repr

def Operation.form : Operation → Form
  | .register => ⟨"RegisterRequest",
    [.plain "username", .plain "password", ⟨"email", [], false⟩,
      ⟨"phoneNumber", ["phone_number"], false⟩]⟩
  | .confirmRegistration =>
    ⟨"ConfirmRegistrationRequest", [.plain "username", .plain "confirmationCode"]⟩
  | .authenticate => ⟨"AuthenticateRequest", [.plain "username", .plain "password"]⟩
  | .refresh => ⟨"RefreshRequest", [.plain "refreshToken"]⟩
  | .requestPasswordReset => ⟨"PasswordResetRequest", [.plain "username"]⟩
  | .confirmPasswordReset =>
    ⟨"ConfirmPasswordResetRequest",
      [.plain "username", .plain "confirmationCode", .plain "password"]⟩

/-- The fields' contents in the order of the form. -/
def Request.fields : Request → List (Option String)
  | .register username password email phoneNumber =>
    [some username, some password, email, phoneNumber]
  | .confirmRegistration username code => [some username, some code]
  | .authenticate username password => [some username, some password]
  | .refresh token => [some token]
  | .requestPasswordReset username => [some username]
  | .confirmPasswordReset username code password => [some username, some code, some password]

end RecordService.Identity
