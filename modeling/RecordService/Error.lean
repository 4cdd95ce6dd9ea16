import RecordService.Identity.Fault
/-!
# What can go wrong

Errors are kept by their cause; the words are found in `message`, once for each cause. A cause that
comes from elsewhere is `stated` in its own words.
-/

namespace RecordService

/-- The key of a record: the name of the key attribute, and its value. -/
structure Key where
  name : String
  value : String
deriving DecidableEq, Repr

/-- What is wrong with a request or with the settings. -/
inductive Problem where
  | bodyNotObject
  | keyNotText (name : String)
  | keyEmpty (name : String)
  | keyChanged (name : String)
  | manyFilters
  /-- The body is not announced as JSON. -/
  | notJsonType
  | bodyTooLong
  /-- The body holds no value. -/
  | body (fault : Json.Fault)
  /-- The body is no identity request. -/
  | form (fault : Identity.Fault)
  | keyAttributeEmpty
  | defaultFilterEmpty
  | createdAtEmpty
  | createdAtIsKey (name : String)
  | projectedNameEmpty
  | timeoutZero
  | stated (words : String)
deriving DecidableEq, Repr

def Problem.message : Problem → String
  | .bodyNotObject => "the request body must be a JSON object"
  | .keyNotText name => "\"" ++ name ++ "\" must be a string"
  | .keyEmpty name => "\"" ++ name ++ "\" must not be empty"
  | .keyChanged name => "\"" ++ name ++ "\" identifies the record and cannot be updated"
  | .manyFilters => "at most one filter parameter is supported"
  | .notJsonType => "Expected request with `Content-Type: application/json`"
  | .bodyTooLong => "Failed to buffer the request body: length limit exceeded"
  | .body fault => fault.bodyMessage
  | .form fault => fault.message
  | .keyAttributeEmpty => "the key attribute must not be empty"
  | .defaultFilterEmpty => "the default filter attribute must not be empty"
  | .createdAtEmpty => "the creation time attribute must not be empty"
  | .createdAtIsKey name =>
    "\"" ++ name ++ "\" cannot be both the key and the creation time attribute"
  | .projectedNameEmpty => "projected attribute names must not be empty"
  | .timeoutZero => "the identity provider timeout must be positive"
  | .stated words => words

/-- Why a stored item is no record's attributes. -/
inductive ConversionFault where
  /-- A number whose text is none. -/
  | notNumber (text : String)
  | binary
  | nullFalse
  /-- A cell of a kind that is not known. -/
  | unknownKind
  /-- Something else stands where a text is wanted that holds the value. -/
  | notEmbedded
  /-- A text that should hold a value holds none. -/
  | embedded (fault : Json.Fault)
  | stated (words : String)
deriving DecidableEq, Repr

def ConversionFault.message : ConversionFault → String
  | .notNumber text =>
    "Failed to parse '" ++ text ++ "' as a float: "
      ++ (if text = "" then "cannot parse float from empty string" else "invalid float literal")
  | .binary => "invalid type: byte array, expected any valid JSON value"
  | .nullFalse => "Expected unit"
  | .unknownKind => "Expected a known kind"
  | .notEmbedded => "Expected string"
  | .embedded fault => fault.message
  | .stated words => words

/-- Why a request to the table failed as a whole. -/
inductive BackendFault where
  /-- No request could be made of what was asked for. -/
  | request
  /-- The table service answered with an error, or with something that is no answer. -/
  | service
  /-- The table service did not answer. -/
  | dispatch
  | stated (words : String)
deriving DecidableEq, Repr

def BackendFault.message : BackendFault → String
  | .request => "failed to construct request"
  | .service => "service error"
  | .dispatch => "dispatch failure"
  | .stated words => words

/-- Why an item is no record. -/
inductive MalformedItem where
  | noKey (name : String)
  | stated (words : String)
deriving DecidableEq, Repr

def MalformedItem.message : MalformedItem → String
  | .noKey name => "the item has no string key attribute \"" ++ name ++ "\""
  | .stated words => words

inductive StoreError where
  | notFound (key : Key)
  | malformedItem (item : MalformedItem)
  | conversion (fault : ConversionFault)
  | backend (fault : BackendFault)
deriving DecidableEq, Repr

def StoreError.message : StoreError → String
  | .notFound key => "could not find a record with " ++ key.name ++ " \"" ++ key.value ++ "\""
  | .malformedItem item => "malformed item: " ++ item.message
  | .conversion fault => "failed to convert attributes: " ++ fault.message
  | .backend fault => "store request failed: " ++ fault.message

/-- Why the settings of the identity provider cannot be used. -/
inductive ProviderFault where
  | notUserPool (id : String)
  | stated (words : String)
deriving DecidableEq, Repr

def ProviderFault.message : ProviderFault → String
  | .notUserPool id => Text.quoted id ++ " is not a user pool identifier"
  | .stated words => words

inductive IdentityError where
  | settings (fault : ProviderFault)
  /-- The provider could not be reached, or did not answer in time. -/
  | unreachable (timedOut : Bool)
deriving DecidableEq, Repr

def IdentityError.message : IdentityError → String
  | .settings fault => "invalid identity provider configuration: " ++ fault.message
  | .unreachable true => "identity provider request failed: timed out"
  | .unreachable false => "identity provider request failed: not reachable"

inductive Error where
  /-- Two attribute names share a placeholder. -/
  | aliasCollision (first second placeholder : String)
  | emptyUpdate (key : String)
  | invalidAttributeName (name : String)
  | readOnlyAttribute (name : String)
  | validation (problem : Problem)
  | store (error : StoreError)
  | identity (error : IdentityError)
deriving DecidableEq, Repr

def Error.message : Error → String
  | .aliasCollision first second placeholder =>
    "attributes `" ++ first ++ "` and `" ++ second ++ "` both map to placeholder `"
      ++ placeholder ++ "`"
  | .emptyUpdate key =>
    "no attributes to update besides the key attribute `" ++ key ++ "`"
  | .invalidAttributeName name => "invalid attribute name " ++ Text.quoted name
  | .readOnlyAttribute name =>
    "`" ++ name ++ "` is set when the record is created and cannot be updated"
  | .validation problem => problem.message
  | .store error => error.message
  | .identity error => error.message

end RecordService
