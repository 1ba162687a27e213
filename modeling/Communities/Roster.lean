import Communities.Network.Degrees
import Communities.Partition

/-!
# Rosters

A roster is a partition under change. It knows the community of each node, the members of each
community and the sum of their degrees, and keeps the three in step while nodes move. The ids of
the communities are fixed at the start; one that loses its last member stays, without members.

* `Roster.ofPartition` and `Roster.singletons` are the two ways to start.
* `Roster.move` takes one node from its community to another.
* `Roster.toPartition` is the partition as it stands, with the ids of empty communities closed up.
-/

namespace Communities

/-- The communities of one level. -/
structure Roster (W : Type) where
  /-- The community of each node. -/
  communityOf : Array Nat
  /-- The members of each community, ascending. -/
  members : Array (List Nat)
  /-- The sum of the members' degrees, for each community. -/
  degreeSums : Array W
  /-- The number of communities with members. -/
  occupied : Nat
  deriving DecidableEq, Repr

/-- An ascending list with `x` in its place; a list that has `x` stays as it is. -/
def insertAscending (x : Nat) (xs : List Nat) : List Nat :=
  if x ∈ xs then xs else xs.takeWhile (· < x) ++ x :: xs.dropWhile (· < x)

namespace Roster

variable {W : Type}

/-- The number of community ids. -/
def capacity (r : Roster W) : Nat := r.members.size

/-- The community that `node` is in. -/
def community (r : Roster W) (node : Nat) : Except Fault Nat := fetch r.communityOf node

/-- The degree sum of `community`. -/
def degreeSum (r : Roster W) (community : Nat) : Except Fault W := fetch r.degreeSums community

/-- The partition into the communities that have members, in the order of their ids. -/
def toPartition (r : Roster W) : Partition := .ofLabels r.communityOf

/-- Every node in a community of its own, which has the same id. -/
def singletons (d : Degrees W) : Roster W :=
  let n := d.byNode.size
  ⟨Array.range n, (Array.range n).map ([·]), d.byNode, n⟩

@[simp] theorem capacity_singletons (d : Degrees W) :
    (singletons d).capacity = d.byNode.size := by
  simp [singletons, capacity]

@[simp] theorem size_toPartition (r : Roster W) : r.toPartition.size = r.communityOf.size := by
  simp [toPartition]

variable [Weight W]

/-- The degree sum of each class of a partition, added up over the nodes it labels. -/
def classSums (p : Partition) (d : Degrees W) : Except Fault (Array W) := do
  p.labels.toList.zipIdx.foldlM
    (fun table (label, node) => do
      let degree ← d.degree node
      adjust table label (· + degree))
    (← blankWeights p.count 0)

/-- The classes of a partition as communities. -/
def ofPartition (p : Partition) (d : Degrees W) : Except Fault (Roster W) := do
  let members ← p.classes
  let sums ← classSums p d
  return ⟨p.labels, members, sums, members.countP (!·.isEmpty)⟩

/-- The roster after `node`, of the given degree, went from `origin` to `target`. The degree sum of
a community that is left empty is exactly zero, whatever rounding it had gathered. -/
def move (r : Roster W) (node origin target : Nat) (degree : W) : Except Fault (Roster W) := do
  let ⟨communityOf, members, sums, occupied⟩ := r
  if (← fetch communityOf node) ≠ origin then
    .error .strayMember
  else if origin = target then
    return ⟨communityOf, members, sums, occupied⟩
  else
    let members ← adjust members origin (·.erase node)
    let members ← adjust members target (insertAscending node)
    let communityOf ← adjust communityOf node fun _ => target
    let occupied := if (← fetch members target).length = 1 then occupied + 1 else occupied
    if (← fetch members origin).isEmpty then
      let sums ← adjust sums origin fun _ => 0
      return ⟨communityOf, members, ← adjust sums target (· + degree), occupied - 1⟩
    else
      let sums ← adjust sums origin (· - degree)
      return ⟨communityOf, members, ← adjust sums target (· + degree), occupied⟩

end Roster

end Communities
