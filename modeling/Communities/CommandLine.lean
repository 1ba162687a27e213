import Communities.CommandLine.Arguments
import Communities.CommandLine.Folder
import Communities.EdgeList.Seed
import Communities.Journal.Filter
import Communities.Solver
import Communities.Table

/-!
# The command

The command reads an edge list and maybe a seed, clusters the network, prints a line for each level
and writes the table of all levels to a file. The first thing that fails is reported in place of all
that comes after it; the lines of the levels are printed before the file is opened.

* `command` is what a command comes to, up to the writing of the file.
* `Failure.text` is the report of a failure.
-/

namespace Communities.CommandLine

open Text

/-- Why a command fails. -/
inductive Failure where
  /-- There is something wrong with a file. -/
  | file (path cause : String)
  /-- The problem is rejected. -/
  | rejected (cause : String)
  deriving DecidableEq, Repr

/-- The report of a failure. -/
def Failure.text : Failure → String
  | file path cause => s!"Error: {path}\n\nCaused by:\n    {cause}"
  | rejected cause => s!"Error: {cause}"

/-- A text to be written to a file. -/
structure Output where
  /-- The path of the file. -/
  path : String
  /-- The text. -/
  text : String
  deriving DecidableEq, Repr

/-- What a command comes to before its output is written. -/
structure Outcome where
  /-- The log. -/
  log : List Entry
  /-- The lines to print. -/
  lines : List String
  /-- What is to be written. -/
  result : Except Failure Output

/-- The path of the table where none is given. -/
def defaultOut : String := "communities.csv"

/-- The topic of the command's own log entries. -/
def commandTopic : String := "louvain_cmd"

variable {W : Type} [Weight W]

/-- The number of communities that the labels of a level count up to. -/
def communityCount (labels : Array Nat) : Nat := labels.foldl (fun n label => max n (label + 1)) 0

/-- The line about a level. -/
def levelLine (weights : WeightText W) (number : Nat) (l : Level W) : String :=
  let found := s!"{communityCount l.labels} communities, modularity {weights.fixed l.modularity}"
  s!"level {number}: {found} ({l.moves} moves, {l.sweeps} sweeps)"

/-- The lines about all levels. -/
def levelLines (weights : WeightText W) (h : Hierarchy W) : List String :=
  h.levels.zipIdx.map fun (l, number) => levelLine weights number l

/-- The edge list at a path. -/
def readEdges (weights : WeightText W) (files : String → Source) (path : String) :
    Except Failure (EdgeList W) :=
  (EdgeList.read weights (files path)).mapError fun e => .file path (e.message weights)

/-- The seed at a path, if there is one. -/
def readSeed (weights : WeightText W) (files : String → Source) (es : EdgeList W) :
    Option String → Except Failure (Option (Array Nat))
  | none => .ok none
  | some path =>
    match es.readSeed (files path) with
    | .ok seed => .ok (some seed)
    | .error e => .error (.file path (e.message weights))

/-- What comes of clustering the network of an edge list and writing out the hierarchy. -/
def clusterEdges (weights : WeightText W) (settings : Settings W) (budget : Nat) (path : String)
    (es : EdgeList W) (net : Network W) (seed : Option (Array Nat)) :
    Except Interrupt Outcome := do
  let (run, _) ← (Solver.ofSettings settings).cluster budget net seed
  let log := run.journal.map (·.entry weights settings.verbose)
  match run.result with
  | .error e => return ⟨log, [], .error (.rejected (e.message weights.plain))⟩
  | .ok h => return ⟨log, levelLines weights h, .ok ⟨path, ← es.table h⟩⟩

/-- What a command with the given settings and paths comes to. -/
def command (weights : WeightText W) (settings : Settings W) (budget : Nat)
    (files : String → Source) (input out : String) (partition : Option String) :
    Except Interrupt Outcome := do
  match readEdges weights files input with
  | .error e => return ⟨[], [], .error e⟩
  | .ok es =>
    let net ← es.toNetwork
    let counts := s!"read {net.size} vertices and {net.edgeCount} edges"
    let read : Entry := ⟨.info, commandTopic, counts⟩
    match readSeed weights files es partition with
    | .error e => return ⟨[read], [], .error e⟩
    | .ok seed =>
      let outcome ← clusterEdges weights settings budget out es net seed
      return { outcome with log := read :: outcome.log }

/-- What a command with the given options comes to. -/
def Options.command (o : Options W) (weights : WeightText W) (threshold : W) (budget : Nat)
    (files : String → Source) : Except Interrupt Outcome :=
  CommandLine.command weights (o.settings threshold) budget files (o.input.getD "")
    (o.out.getD defaultOut) o.partition

/-- The log entries that are shown: those that a filter lets pass, which is one for warnings where
none is given, and for the reports of the levels if these are asked for. -/
def shownLog (filter : Option String) (verbose : Bool) (log : List Entry) : List Entry :=
  let default := if verbose then "info" else "warn"
  log.filter (Filter.parse (filter.getD default)).accepts

end Communities.CommandLine
