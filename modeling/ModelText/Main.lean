import ModelText.CommandLine.Help
import ModelText.CommandLine.Run

/-!
# The program

The commands in the real world: arguments, files, standard output for results, standard error for
reports and for what the journal holds.
-/

namespace ModelText.CommandLine

/-- What an exception of the system means for a stream. -/
def streamErrorOf : IO.Error → StreamError
  | .noFileOrDirectory .. => .notFound
  | .inappropriateType .. => .isDirectory
  | e => .other (toString e)

/-- An action whose exceptions are answers. -/
def answering {α : Type} (action : IO α) : IO (Except StreamError α) := do
  try
    return .ok (← action)
  catch e =>
    return .error (streamErrorOf e)

/-- Files and standard output. -/
def systemConsole : Console IO where
  bytesOf path := answering do
    IO.FS.readBinFile path
  output bytes := answering do
    let stdout ← IO.getStdout
    stdout.write bytes

/-- The line of an event. -/
def eventLine (event : Event) : String :=
  event.level.name ++ " " ++ event.message ++
    String.join (event.fields.map fun (name, value) => " " ++ name ++ "=" ++ value)

/-- Events go to standard error: warnings and errors always, the others if they are asked for. -/
abbrev reporting (verbose : Bool) : Journal IO where
  record event := do
    if verbose || event.level == .warn || event.level == .error then
      IO.eprintln (eventLine event)

/-- The name that the program gives itself. -/
def programName : String :=
  "modeltext"

end ModelText.CommandLine

open ModelText ModelText.CommandLine in
/-- Runs the command that the arguments ask for. -/
def main (arguments : List String) : IO UInt32 := do
  match Request.ofArguments arguments with
  | .help topic =>
    IO.print (topic.text programName)
    return 0
  | .refused =>
    IO.eprintln "error: the arguments ask for no command; try --help"
    return 2
  | .run invocation =>
    have : Journal IO := reporting invocation.verbose
    match ← (run systemConsole invocation).run with
    | .ok .success => return 0
    | .ok .failure => return 1
    | .error report =>
      IO.eprintln report.text
      return 1
