import RecordService.Identity.UserPool
import RecordService.Settings.CommandLine
/-!
# The start of the service

Before the service listens it takes its settings from the command line and the environment, checks
them, and finds the user pool. The first of these that fails stops the start. What is said of
settings and of the user pool is told here; the help text, and what is said of arguments that give
no settings, are left to the library that reads the options.
-/

namespace RecordService.Startup

open Settings Identity

/-- Why the service does not start. -/
inductive Stop where
  | refused (refusal : Refusal)
  | invalid (problem : Problem)
  | noProvider (fault : ProviderFault)
deriving DecidableEq, Repr

/-- The settings and the user pool that the service starts with. -/
def start (args : List String) (lookup : String → Option String) :
    Except Stop (Settings × UserPool) :=
  match ofCommandLine args lookup with
  | .error refusal => .error (.refused refusal)
  | .ok s =>
    match s.problem?, UserPool.ofId s.identityClientId s.identityPoolId with
    | some problem, _ => .error (.invalid problem)
    | none, .error fault => .error (.noProvider fault)
    | none, .ok pool => .ok (s, pool)

namespace Stop

/-- The exit code: asking for help or the version is no failure. -/
def exitCode : Stop → Nat
  | .refused .helpAsked | .refused .versionAsked => 0
  | .refused _ => 2
  | .invalid _ | .noProvider _ => 1

/-- What is written to the standard output. -/
def output : Stop → String
  | .refused .versionAsked => versionText
  | _ => ""

/-- What is written to the standard error. -/
def complaint : Stop → String
  | .refused _ => ""
  | .invalid problem => "Error: Validation(" ++ Text.quoted problem.message ++ ")\n"
  | .noProvider fault => "Error: Config(" ++ Text.quoted fault.message ++ ")\n"

end Stop

end RecordService.Startup
