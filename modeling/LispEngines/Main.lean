import LispEngines.Command.Perform

/-!
# The program

The machine that the program runs on as a host, and the entry point.
-/

namespace LispEngines.Main

/-- The system's words for a failed operation on a file. -/
def reasonOf : IO.Error → String
  | .noFileOrDirectory .. => "No such file or directory (os error 2)"
  | .permissionDenied .. => "Permission denied (os error 13)"
  | .inappropriateType .. => "Is a directory (os error 21)"
  | e => toString e

/-- The names of the variables that set something. -/
def settingNames : List String :=
  ["SCHEMING_CONFIG_PATH", "SCHEMING_ENGINE__EVALUATOR", "SCHEMING_ENGINE__DEBUG",
   "SCHEMING_ENGINE__TIMING", "SCHEMING_ENGINE__MAX_DEPTH", "SCHEMING_VM__STACK_SIZE",
   "SCHEMING_VM__PROGRAM", "SCHEMING_VM__ENTRY", "SCHEMING_SCHEDULER__QUANTUM",
   "SCHEMING_SCHEDULER__DEFAULT_PRIORITY", "SCHEMING_SCHEDULER__IDLE_SLEEP_MS"]

/-- The variables that the system lists, one behind the other with zeros between
them. -/
def listedVariables (s : String) : List (String × String) :=
  (s.splitOn "\x00").filterMap fun entry =>
    match entry.splitOn "=" with
    | name :: rest@(_ :: _) => some (name, "=".intercalate rest)
    | _ => none

/-- All variables if the system lists them, and otherwise those that set
something. -/
def systemVariables : IO (List (String × String)) := do
  try
    return listedVariables (← IO.FS.readFile "/proc/self/environ")
  catch _ =>
    settingNames.filterMapM fun name => return (← IO.getEnv name).map fun v => (name, v)

instance : Host IO where
  readFile path := do
    try
      return .ok (← IO.FS.readFile path)
    catch e => return .error (reasonOf e)
  isFile path := do
    try
      discard (IO.FS.readBinFile path)
      return true
    catch _ => return false
  environment := systemVariables
  readLine := do
    let line ← (← IO.getStdin).getLine
    return if line.isEmpty then none else some line
  write s := do
    let out ← IO.getStdout
    out.putStr s
    out.flush
  tell s := do
    let err ← IO.getStderr
    err.putStr s
    err.flush
  clock := IO.monoNanosNow

/-- What is printed for a call that asks for help or is no call. -/
def usage : String :=
  "Usage: scheming [OPTIONS] <COMMAND>\n\n" ++
  "Commands: " ++ " ".intercalate (Command.Verb.all.map Command.Verb.name) ++ "\n" ++
  "Options: --config <FILE>, -E, --evaluator <NAME>, -d, --debug, -t, --timing, -h, --help\n"

/-- More steps than any run takes. -/
def fuel : Nat := 4000000000000000000

end LispEngines.Main

open LispEngines in
def main (words : List String) : IO UInt32 := do
  match Command.Invocation.ofWords words with
  | .ok invocation => invocation.perform Main.fuel
  | .error .help =>
    Host.write Main.usage
    return 0
  | .error .misuse =>
    Host.tell Main.usage
    return 2
