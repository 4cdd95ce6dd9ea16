import RecordService.Settings.Basic
/-!
# Settings from the command line and the environment

Every setting has an option, and a variable of the environment that is looked at only if the option
is not given. Arguments are read from left to right. An option takes its value after `=` or from the
next argument, which must not look like an option; that value is looked at when the next option
comes, or at the end. After `--` nothing more may come.
-/

namespace RecordService.Settings

inductive Setting where
  | tableName
  | keyAttribute
  | identityClientId
  | identityPoolId
  | identityTimeout
  | bindAddress
  | defaultFilter
  | createdAt
  | projection
  | tableEndpoint
  | logJson
deriving DecidableEq, Repr

namespace Setting

/-- Every setting, in the order in which the environment is looked at. -/
def all : List Setting :=
  [tableName, keyAttribute, identityClientId, identityPoolId, identityTimeout, bindAddress,
    defaultFilter, createdAt, projection, tableEndpoint, logJson]

/-- The name of the option, after `--`. -/
def flag : Setting → String
  | tableName => "table-name"
  | keyAttribute => "key-attribute"
  | identityClientId => "identity-client-id"
  | identityPoolId => "identity-pool-id"
  | identityTimeout => "identity-timeout-ms"
  | bindAddress => "bind-address"
  | defaultFilter => "default-filter-attribute"
  | createdAt => "created-at-attribute"
  | projection => "projection"
  | tableEndpoint => "dynamodb-endpoint"
  | logJson => "log-json"

/-- The variable of the environment. -/
def variable_ : Setting → String
  | tableName => "RECORDS_TABLE"
  | keyAttribute => "KEY_ATTRIBUTE"
  | identityClientId => "IDENTITY_CLIENT_ID"
  | identityPoolId => "IDENTITY_POOL_ID"
  | identityTimeout => "IDENTITY_TIMEOUT_MS"
  | bindAddress => "BIND_ADDRESS"
  | defaultFilter => "DEFAULT_FILTER_ATTRIBUTE"
  | createdAt => "CREATED_AT_ATTRIBUTE"
  | projection => "PROJECTION"
  | tableEndpoint => "DYNAMODB_ENDPOINT"
  | logJson => "LOG_JSON"

end Setting

/-- Why the arguments give no settings; help and version are asked for in the same way. -/
inductive Refusal where
  | helpAsked
  | versionAsked
  /-- No option goes by this name, or no option waits for this value. -/
  | unknownArgument
  /-- An option that has one value is given again. -/
  | repeated
  | valueMissing
  | notBoolean
  /-- A value for an option that takes none. -/
  | valueUnwanted
  /-- A value that is no number or no address. -/
  | unreadable
  | settingMissing
deriving DecidableEq, Repr

/-- The settings that have been given. -/
structure Draft where
  tableName : Option String
  keyAttribute : Option String
  identityClientId : Option String
  identityPoolId : Option String
  identityTimeout : Option UInt64
  bindAddress : Option Address
  defaultFilter : Option String
  createdAt : Option String
  projection : Option (List String)
  tableEndpoint : Option String
  logJson : Option Bool
deriving DecidableEq, Repr

namespace Draft

def empty : Draft := ⟨none, none, none, none, none, none, none, none, none, none, none⟩

def isGiven (d : Draft) : Setting → Bool
  | .tableName => d.tableName.isSome
  | .keyAttribute => d.keyAttribute.isSome
  | .identityClientId => d.identityClientId.isSome
  | .identityPoolId => d.identityPoolId.isSome
  | .identityTimeout => d.identityTimeout.isSome
  | .bindAddress => d.bindAddress.isSome
  | .defaultFilter => d.defaultFilter.isSome
  | .createdAt => d.createdAt.isSome
  | .projection => d.projection.isSome
  | .tableEndpoint => d.tableEndpoint.isSome
  | .logJson => d.logJson.isSome

/-- A number of milliseconds: digits, after a plus sign if there is one. -/
def milliseconds? (s : String) : Option UInt64 :=
  let ds := match s.toList with
    | '+' :: rest => rest
    | cs => cs
  let n := Nat.ofDigitChars 10 ds 0
  if ds.isEmpty ∨ !ds.all Char.isDigit ∨ 0x10000000000000000 ≤ n then none else some (.ofNat n)

def boolean? : String → Option Bool
  | "true" => some true
  | "false" => some false
  | _ => none

/-- Gives a setting its value. Only the projection may be given again, which adds to it. -/
def set (d : Draft) (s : Setting) (value : String) : Except Refusal Draft :=
  if d.isGiven s ∧ s ≠ .projection then .error .repeated
  else match s with
    | .tableName => .ok { d with tableName := some value }
    | .keyAttribute => .ok { d with keyAttribute := some value }
    | .identityClientId => .ok { d with identityClientId := some value }
    | .identityPoolId => .ok { d with identityPoolId := some value }
    | .identityTimeout => match milliseconds? value with
      | some n => .ok { d with identityTimeout := some n }
      | none => .error .unreadable
    | .bindAddress => match Address.read? value with
      | some a => .ok { d with bindAddress := some a }
      | none => .error .unreadable
    | .defaultFilter => .ok { d with defaultFilter := some value }
    | .createdAt => .ok { d with createdAt := some value }
    | .projection =>
      let names := (value.toList.splitOn ',').map String.ofList
      .ok { d with projection := some (d.projection.getD [] ++ names) }
    | .tableEndpoint => .ok { d with tableEndpoint := some value }
    | .logJson => match boolean? value with
      | some b => .ok { d with logJson := some b }
      | none => .error .notBoolean

/-- The settings, with the defaults for what has not been given. -/
def settings (d : Draft) : Except Refusal Settings :=
  match d.tableName, d.identityClientId, d.identityPoolId with
  | some table, some client, some pool =>
    let base := Settings.ofNames table client pool
    .ok { base with
      keyAttribute := d.keyAttribute.getD base.keyAttribute
      identityTimeout := d.identityTimeout.getD base.identityTimeout
      bindAddress := d.bindAddress.getD base.bindAddress
      defaultFilter := d.defaultFilter
      createdAt := d.createdAt
      projection := d.projection.getD []
      tableEndpoint := d.tableEndpoint
      logJson := d.logJson.getD false }
  | _, _, _ => .error .settingMissing

end Draft

/-! ## Arguments -/

/-- An option that waits for its value, or whose value has come and was not looked at yet. -/
inductive Waiting where
  | nothing
  | value (s : Setting)
  | given (s : Setting) (value : String)
deriving DecidableEq, Repr

/-- Looks at what waits. -/
def settle (d : Draft) : Waiting → Except Refusal Draft
  | .nothing => .ok d
  | .value _ => .error .valueMissing
  | .given s value => d.set s value

/-- What an argument that starts with one or two dashes asks for. -/
inductive Asked where
  | help
  | version
  | setting (s : Setting)
deriving DecidableEq, Repr

def long? (name : String) : Option Asked :=
  if name = "help" then some .help
  else if name = "version" then some .version
  else (Setting.all.find? fun s => s.flag == name).map .setting

/-- One argument before any `--`. -/
inductive Argument where
  | endOfOptions
  | long (name : String) (value : Option String)
  | short (first : Char)
  | plain (text : String)
deriving DecidableEq, Repr

def Argument.ofText (arg : String) : Argument :=
  match arg.toList with
  | ['-', '-'] => .endOfOptions
  | '-' :: '-' :: cs =>
    let name := String.ofList (cs.takeWhile (· ≠ '='))
    match cs.dropWhile (· ≠ '=') with
    | _ :: value => .long name (some (String.ofList value))
    | [] => .long name none
  | '-' :: c :: _ => .short c
  | _ => .plain arg

/-- An option that takes no value. -/
def act (d : Draft) (waiting : Waiting) (asked : Asked) : Except Refusal Draft := do
  let d ← settle d waiting
  match asked with
  | .help => throw .helpAsked
  | .version => throw .versionAsked
  | .setting s => d.set s "true"

/-- Reads the arguments on from what is given and what waits. -/
def arguments (d : Draft) (waiting : Waiting) : List String → Except Refusal Draft
  | [] => settle d waiting
  | arg :: args =>
    match Argument.ofText arg with
    | .endOfOptions => if args.isEmpty then settle d waiting else .error .unknownArgument
    | .long name value =>
      match long? name, value with
      | none, _ => .error .unknownArgument
      | some (.setting .logJson), none => do
        arguments (← act d waiting (.setting .logJson)) .nothing args
      | some (.setting .logJson), some _ => .error .valueUnwanted
      | some (.setting s), none => do arguments (← settle d waiting) (.value s) args
      | some (.setting s), some v => do
        let d ← settle d waiting
        arguments (← d.set s v) .nothing args
      | some asked, none => do arguments (← act d waiting asked) .nothing args
      | some _, some _ => .error .valueUnwanted
    | .short 'h' => do arguments (← act d waiting .help) .nothing args
    | .short 'V' => do arguments (← act d waiting .version) .nothing args
    | .short _ => .error .unknownArgument
    | .plain text =>
      match waiting with
      | .value s => arguments d (.given s text) args
      | _ => .error .unknownArgument

/-- Takes the settings not given as options from the environment. -/
def environment (lookup : String → Option String) (d : Draft) : List Setting → Except Refusal Draft
  | [] => .ok d
  | s :: rest =>
    match if d.isGiven s then none else lookup s.variable_ with
    | none => environment lookup d rest
    | some value => do environment lookup (← d.set s value) rest

/-- The settings that arguments and environment give. -/
def ofCommandLine (args : List String) (lookup : String → Option String) :
    Except Refusal Settings := do
  let given ← arguments Draft.empty .nothing args
  (← environment lookup given Setting.all).settings

def versionText : String := "record-gateway 0.1.0\n"

end RecordService.Settings
