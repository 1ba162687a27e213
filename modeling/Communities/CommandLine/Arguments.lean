import Communities.Bounds
import Communities.Settings
import Communities.Text.WeightText

/-!
# Arguments

The arguments of the command line: options by a long name or a letter, and the path of the input.

* The value of an option is the next argument, which must not begin with a hyphen unless it is one,
  or it is attached: `--out=x`, `-ox`, `-o=x`. Letters can be joined, `-ms7`.
* An option is given once at most. Behind `--` there are only paths.
* `Options.parse` reads arguments from the left and stops at the first that is wrong or asks for
  help.
-/

namespace Communities.CommandLine

open Text

/-- An option. -/
inductive Key where
  | out
  | partition
  | threshold
  | multilevel
  | maxLevels
  | maxSweeps
  | shuffle
  | verbose
  | help
  deriving DecidableEq, Repr

namespace Key

/-- The option with the given long name. -/
def ofName? (name : List Char) : Option Key :=
  match String.ofList name with
  | "out" => some out
  | "partition" => some partition
  | "threshold" => some threshold
  | "multilevel" => some multilevel
  | "max_levels" => some maxLevels
  | "max_sweeps" => some maxSweeps
  | "shuffle" => some shuffle
  | "verbose" => some verbose
  | "help" => some help
  | _ => none

/-- The option with the given letter. -/
def ofLetter? : Char → Option Key
  | 'o' => some out
  | 'p' => some partition
  | 't' => some threshold
  | 'm' => some multilevel
  | 's' => some shuffle
  | 'v' => some verbose
  | 'h' => some help
  | _ => none

/-- Whether an option has a value. -/
def hasValue : Key → Bool
  | multilevel | verbose | help => false
  | _ => true

end Key

/-- Why arguments are not read to the end. -/
inductive Stop where
  /-- They are wrong. -/
  | usage
  /-- They ask for help. -/
  | help
  deriving DecidableEq, Repr

/-- What the arguments say. -/
structure Options (W : Type) where
  /-- The path of the edge list. -/
  input : Option String := none
  /-- The path of the table. -/
  out : Option String := none
  /-- The path of the seed. -/
  partition : Option String := none
  /-- The least gain of a move. -/
  threshold : Option W := none
  /-- Whether there is more than one level. -/
  multilevel : Bool := false
  /-- The cap on the number of levels. -/
  maxLevels : Option Nat := none
  /-- The cap on the sweeps of a level. -/
  maxSweeps : Option Nat := none
  /-- The seed of the order of turns. -/
  shuffle : Option Nat := none
  /-- Whether the levels are reported. -/
  verbose : Bool := false
  deriving DecidableEq, Repr

namespace Options

variable {W : Type}

/-- The value of an option that has not been given before. -/
def once {α : Type} (old new : Option α) : Except Stop (Option α) :=
  match old, new with
  | none, some x => .ok (some x)
  | _, _ => .error .usage

/-- A path, which is not empty. -/
def path? (value : List Char) : Option String :=
  if value.isEmpty then none else some (.ofList value)

/-- A 64-bit number. -/
def count? (value : List Char) : Option Nat := Decimal.natural? countBound value

/-- The options with the value of one more. -/
def set (weights : WeightText W) (o : Options W) (key : Key) (value : List Char) :
    Except Stop (Options W) := do
  match key with
  | .out => return { o with out := ← once o.out (path? value) }
  | .partition => return { o with partition := ← once o.partition (path? value) }
  | .threshold => return { o with threshold := ← once o.threshold (weights.read value) }
  | .maxLevels => return { o with maxLevels := ← once o.maxLevels (count? value) }
  | .maxSweeps => return { o with maxSweeps := ← once o.maxSweeps (count? value) }
  | .shuffle => return { o with shuffle := ← once o.shuffle (count? value) }
  | .multilevel | .verbose | .help => .error .usage

/-- The options with one more that has no value. -/
def turnOn (o : Options W) (key : Key) : Except Stop (Options W) :=
  match key with
  | .multilevel => if o.multilevel then .error .usage else .ok { o with multilevel := true }
  | .verbose => if o.verbose then .error .usage else .ok { o with verbose := true }
  | .help => .error .help
  | _ => .error .usage

/-- The options with a path. -/
def addPath (o : Options W) (path : List Char) : Except Stop (Options W) := do
  return { o with input := ← once o.input (path? path) }

/-- Joined letters. The last one may be an option with a value; if that is not attached to it, the
option waits for it. -/
def letters (weights : WeightText W) (o : Options W) :
    List Char → Except Stop (Options W × Option Key)
  | [] => .ok (o, none)
  | c :: cs => do
    match Key.ofLetter? c with
    | none => .error .usage
    | some key =>
      if key.hasValue then
        match cs with
        | [] => return (o, some key)
        | '=' :: value => return (← o.set weights key value, none)
        | value => return (← o.set weights key value, none)
      else
        (← o.turnOn key).letters weights cs

/-- A long name, with an attached value or without one; an option without one waits for it. -/
def long (weights : WeightText W) (o : Options W) (text : List Char) :
    Except Stop (Options W × Option Key) := do
  match Key.ofName? (text.takeWhile (· ≠ '=')), text.dropWhile (· ≠ '=') with
  | none, _ => .error .usage
  | some key, [] => if key.hasValue then return (o, some key) else return (← o.turnOn key, none)
  | some key, _ :: value => return (← o.set weights key value, none)

/-- The options with the arguments of a list added, of which `waiting` waits for a value. -/
def scan (weights : WeightText W) :
    Option Key → Options W → List String → Except Stop (Options W)
  | some _, _, [] => .error .usage
  | none, o, [] => .ok o
  | waiting, o, arg :: args => do
    match waiting, arg.toList with
    | some _, '-' :: _ :: _ => .error .usage
    | some key, value => scan weights none (← o.set weights key value) args
    | none, ['-', '-'] => (args.map (·.toList)).foldlM addPath o
    | none, '-' :: '-' :: text =>
      let (o, waiting) ← o.long weights text
      scan weights waiting o args
    | none, '-' :: c :: cs =>
      let (o, waiting) ← o.letters weights (c :: cs)
      scan weights waiting o args
    | none, path => scan weights none (← o.addPath path) args

/-- The options that arguments stand for, of which the path of the input must be one. -/
def parse (weights : WeightText W) (args : List String) : Except Stop (Options W) := do
  let o ← scan weights none {} args
  if o.input.isSome then return o else .error .usage

/-- The settings that the options stand for, with a threshold where none is given. -/
def settings (o : Options W) (threshold : W) : Settings W where
  threshold := o.threshold.getD threshold
  levels := if o.multilevel then .multilevel o.maxLevels else .single
  order := match o.shuffle with
    | some seed => .shuffled (.ofNat seed)
    | none => .ascending
  maxSweeps := o.maxSweeps
  verbose := o.verbose

end Options

/-- The lines of the help text. -/
def helpLines : List String := [
  "Usage: louvain-cmd [OPTIONS] <INPUT>",
  "",
  "Arguments:",
  "  <INPUT>  Edge list, one 'src dst [weight]' per line (optionally gzipped)",
  "",
  "Options:",
  "  -o, --out <OUT>                Output csv with the partition at every level " ++
    "[default: communities.csv]",
  "  -p, --partition <PARTITION>    Seed partition, one 'vertex community' per line",
  "  -t, --threshold <THRESHOLD>    Minimum modularity gain for a vertex move [default: 1e-5]",
  "  -m, --multilevel               Keep aggregating until no level improves",
  "      --max_levels <MAX_LEVELS>  Maximum number of levels with --multilevel",
  "      --max_sweeps <MAX_SWEEPS>  Fail if a level has not converged after this many sweeps",
  "  -s, --shuffle <SHUFFLE>        Visit vertices in a random order drawn from this seed " ++
    "instead of by id",
  "  -v, --verbose                  Report every level",
  "  -h, --help                     Print help"]

end Communities.CommandLine
