import Communities.Rejection
import Communities.Weight

/-!
# Settings

What a user decides: the least gain that moves a node, how many levels to build, in which order
the nodes take their turns, how many sweeps a level may take, and whether to report the levels.

`Settings.check` names the first setting that is out of range.
-/

namespace Communities

/-- How many levels to build. -/
inductive LevelPolicy where
  /-- One level. -/
  | single
  /-- As many as move a node, at most `max` if that is given. -/
  | multilevel (max : Option Nat)
  deriving DecidableEq, Repr

/-- The order in which the nodes take their turns. -/
inductive VisitOrder where
  /-- By ascending id. -/
  | ascending
  /-- An order for each level that depends on the seed and the number of the level. -/
  | shuffled (seed : UInt64)
  deriving DecidableEq, Repr

/-- The settings of a solver. -/
structure Settings (W : Type) where
  /-- A node moves if that gains more than this. -/
  threshold : W
  /-- How many levels to build. -/
  levels : LevelPolicy := .single
  /-- The order in which the nodes take their turns. -/
  order : VisitOrder := .ascending
  /-- The cap on the sweeps of a level. -/
  maxSweeps : Option Nat := none
  /-- Whether the levels are reported. -/
  verbose : Bool := false
  deriving DecidableEq, Repr

/-- The threshold where none is given. -/
def defaultThreshold : Float := 1e-5

/-- The cap on the number of levels. -/
def LevelPolicy.cap : LevelPolicy → Option Nat
  | single => some 1
  | multilevel max => max

/-- Accepts settings that are in range, and names the first that is not. -/
def Settings.check {W : Type} [Weight W] (s : Settings W) : Except (Rejection W) Unit :=
  if ¬(Weight.isFinite s.threshold = true ∧ 0 < s.threshold) then
    .error (.setting .threshold)
  else if s.maxSweeps = some 0 then
    .error (.setting .maxSweeps)
  else if s.levels = .multilevel (some 0) then
    .error (.setting .maxLevels)
  else
    .ok ()

end Communities
