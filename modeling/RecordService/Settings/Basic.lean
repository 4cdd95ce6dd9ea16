import RecordService.Error
import RecordService.Settings.Address
/-!
# Settings

What the service is told at its start, and the check that refuses settings under which every request
of some kind would fail.
-/

namespace RecordService

open Settings

structure Settings where
  /-- The table that holds the records. -/
  tableName : String
  /-- The attribute that identifies a record. -/
  keyAttribute : String
  identityClientId : String
  identityPoolId : String
  /-- Milliseconds that a request to the identity provider may take. -/
  identityTimeout : UInt64
  bindAddress : Address
  /-- The attribute that a listing without parameters wants to be the empty text. -/
  defaultFilter : Option String
  /-- The attribute that is stamped with the time of creation. -/
  createdAt : Option String
  /-- The attributes shown beside the key; none stand for all. -/
  projection : List String
  tableEndpoint : Option String
  logJson : Bool
deriving DecidableEq, Repr

namespace Settings

def defaultAddress : Address := ⟨.v4 0 0 0 0, 3000⟩

/-- The settings that name only what has no default. -/
def ofNames (tableName identityClientId identityPoolId : String) : Settings where
  tableName := tableName
  keyAttribute := "userId"
  identityClientId := identityClientId
  identityPoolId := identityPoolId
  identityTimeout := 10000
  bindAddress := defaultAddress
  defaultFilter := none
  createdAt := none
  projection := []
  tableEndpoint := none
  logJson := false

/-- Whole seconds that a request to the identity provider may take. -/
def identitySeconds (s : Settings) : Nat := s.identityTimeout.toNat / 1000

/-- The first problem of the settings, if there is one. -/
def problem? (s : Settings) : Option Problem :=
  if s.keyAttribute = "" then some .keyAttributeEmpty
  else if s.defaultFilter = some "" then some .defaultFilterEmpty
  else if s.createdAt = some "" then some .createdAtEmpty
  else if s.createdAt = some s.keyAttribute then some (.createdAtIsKey s.keyAttribute)
  else if s.projection.contains "" then some .projectedNameEmpty
  else if s.identityTimeout = 0 then some .timeoutZero
  else none

/-- The settings can be used. -/
def validate (s : Settings) : Except Error Unit :=
  match s.problem? with
  | none => .ok ()
  | some problem => .error (.validation problem)

end Settings

end RecordService
