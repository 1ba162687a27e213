import Communities.CommandLine

/-!
# Program

Reads the files that the arguments name, hands their contents to `command`, and prints and writes
what comes of it.
-/

namespace Communities.CommandLine

open Text

/-- The number of a system error; some calls report it negated. -/
def errorNumber (code : UInt32) : UInt32 := min code (0 - code)

/-- The wording of a failed read or write. -/
def systemMessage : IO.Error → String
  | .noFileOrDirectory _ _ _ => FileError.missing.message
  | .permissionDenied _ code _ => s!"Permission denied (os error {errorNumber code})"
  | .inappropriateType _ code details =>
    if errorNumber code = 20 then FileError.notFolder.message
    else if errorNumber code = 21 then FileError.isFolder.message
    else s!"{details} (os error {errorNumber code})"
  | e => toString e

/-- The text of the file at a path. -/
def readText (path : String) : IO Source := do
  try
    return fileText path (← IO.FS.readBinFile path)
  catch e =>
    return { bytes := .empty, failure := some (systemMessage e) }

/-- Writes a text to the file at a path. -/
def writeText (output : Output) : IO (Option Failure) := do
  try
    IO.FS.writeBinFile output.path (fileBytes output.path output.text)
    return none
  catch e =>
    return some (.file output.path (systemMessage e))

/-- Prints what comes of a command and writes its output; the answer is the exit code. -/
def present (o : Outcome) (shown : List Entry) : IO UInt32 := do
  for e in shown do
    IO.eprintln s!"[{e.severity.name} {e.topic}] {e.text}"
  for line in o.lines do
    IO.println line
  let failure ← match o.result with
    | .error e => pure (some e)
    | .ok output => writeText output
  match failure with
  | some e =>
    IO.eprintln e.text
    return 1
  | none => return 0

/-- More sweeps than any search takes. -/
def sweepBudget : Nat := 1000000000000000000

/-- The environment variable that holds the log filter. -/
def filterVariable : String := "RUST_LOG"

/-- Runs the command with the given options. -/
def perform (o : Options Float) : IO UInt32 := do
  let input := o.input.getD ""
  let text ← readText input
  let seed ← match o.partition with
    | some path => readText path
    | none => pure { bytes := .empty }
  let files (path : String) := if path = input then text else seed
  match o.command .decimal defaultThreshold sweepBudget files with
  | .error _ => return 101
  | .ok outcome => present outcome (shownLog (← IO.getEnv filterVariable) o.verbose outcome.log)

end Communities.CommandLine

open Communities CommandLine

def main (args : List String) : IO UInt32 := do
  match Options.parse .decimal args with
  | .ok o => perform o
  | .error .help =>
    for line in helpLines do
      IO.println line
    return 0
  | .error .usage =>
    IO.eprintln "error: wrong arguments, try '--help'"
    return 2
