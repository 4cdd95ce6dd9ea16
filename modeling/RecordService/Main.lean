import RecordService.Startup
/-!
# The command line

Starts the service as far as it goes before listening, and reports what stops it.
-/

open RecordService

def main (args : List String) : IO UInt32 := do
  let found ← Settings.Setting.all.filterMapM fun s => do
    return (← IO.getEnv s.variable_).map fun value => (s.variable_, value)
  match Startup.start args (Entries.find? · found) with
  | .ok _ => return 0
  | .error stop =>
    IO.print stop.output
    IO.eprint stop.complaint
    return UInt32.ofNat stop.exitCode
