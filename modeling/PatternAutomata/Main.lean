import PatternAutomata.CommandLine.Outcome

/-!
# The program

Reads the command line, runs the request on the system and leaves with its exit status.
-/

namespace PatternAutomata.CommandLine

/-- Whether a system error has a number; some operations give it negated. -/
def hasNumber (code number : UInt32) : Bool :=
  code = number || code = 0 - number

def fileErrorOf (error : IO.Error) : FileError :=
  match error with
  | .noFileOrDirectory .. => .missing
  | .permissionDenied .. => .denied
  | .inappropriateType _ code _ => if hasNumber code 20 then .notDirectory else .isDirectory
  | .invalidArgument _ code _ =>
    if hasNumber code 36 then .nameTooLong else .other (toString error)
  | _ => .other (toString error)

def attempt {α : Type} (action : IO α) : IO (Except FileError α) := do
  try
    return .ok (← action)
  catch error =>
    return .error (fileErrorOf error)

def systemHost : Host IO where
  readFile path := do
    return (← attempt (IO.FS.readBinFile path)) >>= decodeText
  readInput := do
    return (← attempt (do (← IO.getStdin).readBinToEnd)) >>= decodeText
  writeFile path text := attempt (IO.FS.writeFile path text)
  onTerminal := do
    return (← (← IO.getStdout).isTty) && (← (← IO.getStderr).isTty)

/-- What is said about a command line that is not run, and its exit status.  The words stand for the
kind of the mistake; nothing else depends on them. -/
def UsageError.outcome : UsageError → Outcome
  | helpWanted => .success usage
  | commandMissing => { errors := usage, status := 2 }
  | unknownCommand => { errors := "error: unrecognized subcommand\n", status := 2 }
  | unknownArgument => { errors := "error: unexpected argument\n", status := 2 }
  | repeated => { errors := "error: argument given more than once\n", status := 2 }
  | surplusValue => { errors := "error: unexpected value\n", status := 2 }
  | invalidValue => { errors := "error: invalid value\n", status := 2 }
  | argumentMissing => { errors := "error: required argument missing\n", status := 2 }
where
  usage : String :=
    let names := ", ".intercalate (Command.all.map Command.name)
    s!"Commands: {names}\n"

end PatternAutomata.CommandLine

open PatternAutomata.CommandLine in
def main (args : List String) : IO UInt32 := do
  let outcome ← match parseArguments args with
    | .ok request => request.run systemHost
    | .error error => pure error.outcome
  (← IO.getStdout).putStr outcome.output
  (← IO.getStderr).putStr outcome.errors
  return outcome.status.toUInt32
