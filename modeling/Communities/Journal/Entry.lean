import Communities.Journal
import Communities.Text.WeightText

/-!
# Log entries

The written form of a journal. An entry has a severity, a topic, which says what part of the program
it is from, and a text.
-/

namespace Communities

open Text

/-- How important an entry is. -/
inductive Severity where
  | error
  | warn
  | info
  | debug
  | trace
  deriving DecidableEq, Repr

/-- The place of a severity, from the most important one on. -/
def Severity.rank : Severity → Nat
  | error => 1
  | warn => 2
  | info => 3
  | debug => 4
  | trace => 5

/-- The name of a severity. -/
def Severity.name : Severity → String
  | error => "ERROR"
  | warn => "WARN"
  | info => "INFO"
  | debug => "DEBUG"
  | trace => "TRACE"

/-- An entry of a log. -/
structure Entry where
  /-- How important it is. -/
  severity : Severity
  /-- What part of the program it is from. -/
  topic : String
  /-- What it says. -/
  text : String
  deriving DecidableEq, Repr

/-- The topic of the search of a level. -/
def searchTopic : String := "louvain::local_moving"

/-- The topic of the solver. -/
def solverTopic : String := "louvain::louvain"

variable {W : Type}

/-- The entry about a move. -/
def Move.entry (weights : WeightText W) (m : Move W) : Entry :=
  ⟨.trace, searchTopic,
    s!"move {m.node}: {m.origin} -> {m.target} (dQ = {weights.scientific m.gain})"⟩

/-- The entry about an event. With `verbose` the levels are reported in full. -/
def Event.entry (weights : WeightText W) (verbose : Bool) : Event W → Entry
  | edgeless seeded =>
    let name := if seeded then "seed" else "singleton"
    ⟨.debug, solverTopic, s!"graph has no edges, returning the {name} partition"⟩
  | move m => m.entry weights
  | sweep depth number moves communities =>
    ⟨.debug, searchTopic,
      s!"level {depth} sweep {number}: {moves} moves, {communities} communities"⟩
  | level number nodes communities moves sweeps modularity =>
    let q := weights.fixed modularity
    if verbose then
      let change := s!"{nodes} nodes -> {communities} communities"
      ⟨.info, solverTopic,
        s!"level {number}: {change}, {moves} moves in {sweeps} sweeps, Q = {q}"⟩
    else
      ⟨.debug, solverTopic, s!"level {number}: {communities} communities, Q = {q}"⟩

end Communities
