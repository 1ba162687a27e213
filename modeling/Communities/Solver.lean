import Communities.Hierarchy
import Communities.Journal
import Communities.Network.Build
import Communities.SourceGraph

/-!
# Solver

The solver builds a hierarchy of communities. On each level it searches for better communities of
single nodes, then draws each community together into one node, and goes on with the network of
those; it ends when a level moves no node, or after as many levels as the settings allow. A seed is
a partition that the solver starts from: its classes are drawn together before the first level.

* `Solver.cluster` is the run on a network, `Solver.run` that on a source graph. Both give the
  journal of the run, and a rejection or the hierarchy.
* A budget bounds the sweeps of each level. A run that would need more is `unfinished`, any larger
  budget that is enough gives the same answer.
-/

namespace Communities

/-- Settings, and the space that one run leaves to the next. -/
structure Solver (W : Type) where
  /-- The settings. -/
  settings : Settings W
  /-- Space to reuse. -/
  scratch : Scratch W
  deriving DecidableEq, Repr

/-- What comes of a run. -/
structure Run (W : Type) where
  /-- What the solver did. -/
  journal : List (Event W)
  /-- The answer. -/
  result : Except (Rejection W) (Hierarchy W)

/-- What comes of the levels from some level on. -/
structure Climb (W : Type) where
  /-- What the solver did. -/
  journal : List (Event W)
  /-- The levels, and the network after the last of them. -/
  result : Except (Rejection W) (List (Level W) × Option (Network W))
  /-- Space to reuse. -/
  scratch : Scratch W

variable {W : Type} [Weight W]

namespace Climb

/-- Levels that end here. -/
def last (journal : List (Event W)) (levels : List (Level W)) (coarse : Option (Network W))
    (scratch : Scratch W) : Climb W :=
  ⟨journal, .ok (levels, coarse), scratch⟩

/-- The levels with one more in front of them. -/
def cons (journal : List (Event W)) (level : Level W) (rest : Climb W) : Climb W :=
  ⟨journal ++ rest.journal, rest.result.map fun (levels, coarse) => (level :: levels, coarse),
    rest.scratch⟩

end Climb

/-- The level that a search leads to, and its partition. -/
def Search.level (s : Search W) (net : Network W) : Except Fault (Level W × Partition) := do
  let partition := s.roster.toPartition
  let q ← modularityByBlocks net partition
  return (⟨partition.labels, q, s.sweeps.length, s.moveCount⟩, partition)

/-- The levels from number `number` on, of which `current` is the network. -/
def climb (settings : Settings W) (budget number : Nat) (current : Network W)
    (scratch : Scratch W) : Except Interrupt (Climb W) := do
  let degrees := current.degrees
  let search ← Search.run settings budget current degrees (.singletons degrees) number scratch
  let events := search.events number
  let scratch := search.scratch
  if search.ending = .capped then
    return ⟨events, .error (.notConverged number search.sweeps.length), scratch⟩
  else if search.moveCount = 0 ∧ 0 < number then
    return .last events [] (some current) scratch
  else
    let (level, partition) ← search.level current
    let events := events ++
      [.level number current.size partition.count level.moves level.sweeps level.modularity]
    if level.moves = 0 then
      return .last events [level] none scratch
    else
      let reduced ← current.condense partition
      if settings.levels.cap.any (· ≤ number + 1) then
        return .last events [level] (some reduced) scratch
      else if reduced.size < current.size then
        return .cons events level (← climb settings budget (number + 1) reduced scratch)
      else
        return .last events [level] (some reduced) scratch
termination_by current.size

/-- The labels of a network's nodes carried back to the vertices that a seed put into them. -/
def pullBack (seed : Option Partition) (levels : List (Level W)) : Except Fault (List (Level W)) :=
  match seed, levels with
  | some p, first :: rest => do
    return { first with labels := ← Hierarchy.compose p.labels first.labels } :: rest
  | _, levels => .ok levels

/-- Accepts a seed with a label for each vertex. -/
def checkSeed (nodes : Nat) (seed : Option (Array Nat)) : Except (Rejection W) Unit :=
  match seed with
  | some labels => if labels.size = nodes then .ok () else .error (.seedSize nodes labels.size)
  | none => .ok ()

namespace Solver

/-- A solver with the given settings. -/
def ofSettings (settings : Settings W) : Solver W := ⟨settings, .empty⟩

/-- The run on a network without edges: the seed, or every node alone, is the answer. -/
def edgelessRun (net : Network W) (seed : Option (Array Nat)) : Except Fault (Run W) := do
  let labels := seed.getD (Array.range net.size)
  return ⟨[.edgeless seed.isSome], .ok (← Hierarchy.ofLevels [⟨labels, 0, 0, 0⟩] none)⟩

/-- The run on a network that has been found acceptable. -/
def search (s : Solver W) (budget : Nat) (net : Network W) (seed : Option (Array Nat)) :
    Except Interrupt (Run W × Solver W) := do
  if net.edgeCount = 0 then
    return (← edgelessRun net seed, s)
  else
    let seed := seed.map Partition.ofLabels
    let base ← match seed with
      | some p => net.condense p
      | none => pure net
    let climbed ← climb s.settings budget 0 base s.scratch
    let s := ⟨s.settings, climbed.scratch⟩
    match climbed.result with
    | .error e => return (⟨climbed.journal, .error e⟩, s)
    | .ok (levels, coarse) =>
      let h ← Hierarchy.ofLevels (← pullBack seed levels) coarse
      return (⟨climbed.journal, .ok h⟩, s)

/-- The run on a network, from a seed if one is given: a label for each node. The settings, the
length of the seed and the weights are checked in this order. -/
def cluster (s : Solver W) (budget : Nat) (net : Network W) (seed : Option (Array Nat)) :
    Except Interrupt (Run W × Solver W) :=
  match (do s.settings.check; checkSeed net.size seed; checkEdges net.edges) with
  | .error e => .ok (⟨[], .error e⟩, s)
  | .ok () => s.search budget net seed

/-- The run on a source graph, with its edges weighed. The direction, the settings and the length
of the seed are checked before the network is built. -/
def run {V : Type} (s : Solver W) (budget : Nat) (g : SourceGraph V) (weight : Option (V → W))
    (seed : Option (Array Nat)) : Except Interrupt (Run W × Solver W) := do
  let reject (e : Rejection W) := (⟨[], .error e⟩, s)
  if g.directed then
    return reject .directed
  else
    match (do s.settings.check; checkSeed g.nodeCount seed) with
    | .error e => return reject e
    | .ok () =>
      match ← g.toNetwork weight with
      | .error e => return reject e
      | .ok net => s.cluster budget net seed

end Solver

end Communities
