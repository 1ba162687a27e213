import Communities.Network

/-!
# Hierarchies

A hierarchy is a sequence of ever coarser partitions. The first level labels the vertices,
each later one the communities of the level before it; the labels are composed on demand.

* `Hierarchy.partitionAt` is the partition of the vertices at a level.
* `Hierarchy.finalPartition` and `Hierarchy.modularity` are those of the last level.
-/

namespace Communities

/-- One level of a hierarchy. -/
structure Level (W : Type) where
  /-- The community of each vertex, or of each community of the level before. -/
  labels : Array Nat
  /-- The modularity of the partition. -/
  modularity : W
  /-- The number of sweeps that were made. -/
  sweeps : Nat
  /-- The number of moves that were made. -/
  moves : Nat
  deriving DecidableEq, Repr

/-- Partitions from the finest to the coarsest. -/
structure Hierarchy (W : Type) where
  /-- The levels, the finest first. -/
  levels : List (Level W)
  /-- The network of the communities of the last level, if nodes were drawn together. -/
  coarse : Option (Network W)
  deriving DecidableEq, Repr

namespace Hierarchy

variable {W : Type}

/-- A hierarchy of the given levels, of which there has to be one. -/
def ofLevels (levels : List (Level W)) (coarse : Option (Network W)) : Except Fault (Hierarchy W) :=
  if levels.isEmpty then .error .noLevels else .ok ⟨levels, coarse⟩

/-- The labels replaced by those that a coarser level gives them. -/
def compose (fine coarse : Array Nat) : Except Fault (Array Nat) :=
  fine.mapM (fetch coarse)

/-- The community of each vertex at level `k`, where there is such a level. -/
def partitionAt (h : Hierarchy W) (k : Nat) : Except Fault (Option (Array Nat)) :=
  match h.levels.take (k + 1) with
  | [] => .ok none
  | first :: rest =>
    if k < h.levels.length then
      some <$> rest.foldlM (fun labels level => compose labels level.labels) first.labels
    else
      .ok none

/-- The community of each vertex at the last level. -/
def finalPartition (h : Hierarchy W) : Except Fault (Array Nat) := do
  return (← h.partitionAt (h.levels.length - 1)).getD #[]

/-- The modularity at the last level. -/
def modularity [Weight W] (h : Hierarchy W) : W :=
  match h.levels.getLast? with
  | some level => level.modularity
  | none => 0

end Hierarchy

end Communities
