import Communities.CommandLine

/-!
# Sessions

The whole program at work in a folder held in memory: from the arguments to the exit code, what is
printed and logged, and the folder afterwards.
-/

namespace Communities.CommandLine

open Text

/-- What a run of the program leaves behind. -/
structure Report where
  /-- The exit code: 0, 1 for a failure, 2 for wrong arguments. -/
  exitCode : Nat
  /-- The printed lines. -/
  lines : List String
  /-- The entries of the log that are shown. -/
  log : List Entry
  /-- The failure, if there is one. -/
  failure : Option Failure
  /-- The folder. -/
  folder : Folder

/-- The report after the output of a command has been written. -/
def Outcome.finish (o : Outcome) (log : List Entry) (folder : Folder) : Report :=
  match o.result with
  | .error e => ⟨1, o.lines, log, some e, folder⟩
  | .ok output =>
    match folder.write output.path output.text with
    | .error e => ⟨1, o.lines, log, some (.file output.path e.message), folder⟩
    | .ok folder => ⟨0, o.lines, log, none, folder⟩

variable {W : Type} [Weight W]

/-- The report of the program with the given arguments and log filter. -/
def execute (weights : WeightText W) (threshold : W) (budget : Nat) (folder : Folder)
    (filter : Option String) (args : List String) : Except Interrupt Report :=
  match Options.parse weights args with
  | .error .usage => .ok ⟨2, [], [], none, folder⟩
  | .error .help => .ok ⟨0, helpLines, [], none, folder⟩
  | .ok o => do
    let outcome ← o.command weights threshold budget folder.open?
    return outcome.finish (shownLog filter o.verbose outcome.log) folder

end Communities.CommandLine
