/-!
# Rejections

What can be wrong with a problem, as opposed to a `Fault` of the caller: the solver looks the whole
problem over and says what it does not accept. `Rejection.message` is the wording.
-/

namespace Communities

/-- A setting that has to lie in a range. -/
inductive Setting where
  /-- The least gain of a move. -/
  | threshold
  /-- The cap on the sweeps of a level. -/
  | maxSweeps
  /-- The cap on the number of levels. -/
  | maxLevels
  deriving DecidableEq, Repr

/-- The reasons not to give an answer. -/
inductive Rejection (W : Type) where
  /-- The graph is directed. -/
  | directed
  /-- A seed with another number of labels than the graph has vertices. -/
  | seedSize (expected found : Nat)
  /-- An edge with a negative, infinite or undefined weight. -/
  | edgeWeight (source target : Nat) (weight : W)
  /-- A graph with more vertices than 32-bit ids can count. -/
  | tooManyNodes (nodes : Nat)
  /-- A setting outside its range. -/
  | setting (setting : Setting)
  /-- A level that still moves nodes when the cap on its sweeps is reached. -/
  | notConverged (level sweeps : Nat)
  deriving DecidableEq, Repr

/-- The name of a setting. -/
def Setting.name : Setting → String
  | threshold => "threshold"
  | maxSweeps => "max_sweeps"
  | maxLevels => "max_levels"

/-- The range of a setting. -/
def Setting.range : Setting → String
  | threshold => "must be a finite positive number"
  | maxSweeps => "must be at least 1"
  | maxLevels => "must be at least 1"

/-- The wording of a rejection, with weights written by `text`. -/
def Rejection.message {W : Type} (text : W → String) : Rejection W → String
  | directed => "louvain requires an undirected graph"
  | seedSize expected found =>
    s!"seed partition has {found} labels but the graph has {expected} vertices"
  | edgeWeight source target weight =>
    s!"edge ({source}, {target}) has invalid weight {text weight}"
  | tooManyNodes nodes =>
    s!"graph has {nodes} vertices, more than 4294967295 are not supported"
  | setting s => s!"invalid parameter '{s.name}': {s.range}"
  | notConverged level sweeps => s!"level {level} did not converge after {sweeps} sweeps"

end Communities
