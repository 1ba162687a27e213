import Communities.Network.Degrees
import Communities.Partition

/-!
# Modularity

The modularity of a partition is `∑ (e c - (a c) ^ 2)` over its classes `c`, where `e c` is the
part of the edge weight that lies within `c` and `a c` the part of the edge ends attached to it. A
loop counts once as an edge and twice as edge ends. Where no edge has weight it is zero.

* `modularity` walks through the edges one after the other.
* `modularityByBlocks` adds up within blocks of nodes first, about 64 of them, and takes the ends
  from the weighted degrees.
* `gain` is the change of modularity when one node moves.
-/

namespace Communities

variable {W : Type} [Weight W]

/-- The score of sums over a partition: `internal` is twice the weight within classes, `m` twice
the weight of all edges, and each class has the sum of its degrees. -/
def score (internal m : W) (degreeSums : List W) : W :=
  if m == 0 then 0
  else degreeSums.foldl (fun rest d => rest - d * d / m) internal / m

/-- What a walk over the edges has added up. -/
structure EdgeSums (W : Type) where
  /-- Twice the weight within classes. -/
  internal : W
  /-- The weight of all edges. -/
  total : W
  /-- The edge ends attached to each class. -/
  ends : Array W

/-- The sums with one more edge between the classes `a` and `b`. -/
def EdgeSums.add (sums : EdgeSums W) (a b : Nat) (weight : W) : Except Fault (EdgeSums W) := do
  let ends ← adjust sums.ends a (· + weight)
  let ends ← adjust ends b (· + weight)
  let internal := if a = b then sums.internal + Weight.two * weight else sums.internal
  return ⟨internal, sums.total + weight, ends⟩

/-- The modularity of a partition of a network. -/
def modularity (net : Network W) (p : Partition) : Except Fault W := do
  let sums ← net.edges.foldlM
    (fun (sums : EdgeSums W) e => do sums.add (← p.label e.source) (← p.label e.target) e.weight)
    ⟨0, 0, ← blankWeights p.count 0⟩
  return score sums.internal (Weight.two * sums.total) sums.ends.toList

/-- Twice the weight within classes and the weight of all edges, of the edges that go up from the
nodes of a block. -/
def blockSums (p : Partition) (block : List (Node W × Nat)) : Except Fault (W × W) :=
  block.foldlM
    (fun sums (self, node) => do
      let own ← p.label node
      (self.upward node).foldlM
        (fun (internal, total) link => do
          if own = (← p.label link.target) then
            return (internal + Weight.two * link.weight, total + link.weight)
          else
            return (internal, total + link.weight))
        sums)
    (0, 0)

/-- The degree sum of each class. -/
def classDegrees (d : Degrees W) (p : Partition) : Except Fault (Array W) := do
  d.byNode.toList.zipIdx.foldlM
    (fun table (degree, node) => do adjust table (← p.label node) (· + degree))
    (← blankWeights p.count 0)

/-- The modularity of a partition of a network, added up by blocks of nodes. -/
def modularityByBlocks (net : Network W) (p : Partition) : Except Fault W := do
  let sums ← (blocks (net.size / 64) net.nodes.toList.zipIdx).mapM (blockSums p)
  let (internal, total) :=
    sums.foldl (fun (internal, total) (i, t) => (internal + i, total + t)) (0, 0)
  return score internal (Weight.two * total) (← classDegrees net.degrees p).toList

/-- The change of modularity when a node of the given degree moves from its community to another.
`linkHere` and `linkThere` are the weights of its links to the other members of either, `sumHere`
(with the node) and `sumThere` their degree sums, and `m` is twice the weight of all edges. -/
def gain (degree linkHere sumHere linkThere sumThere m : W) : Except Fault W :=
  if 0 < m then
    .ok (Weight.two * ((linkThere - linkHere) - degree / m * (sumThere - sumHere + degree)) / m)
  else
    .error .weightless

end Communities
