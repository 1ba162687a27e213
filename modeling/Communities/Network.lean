import Communities.Fault
import Communities.Weight

/-!
# Networks

An undirected network of weighted edges. A node has a population, the number of vertices
it stands for, and a row of links in ascending order of their targets. An edge between two nodes
is a link in the rows of both, a loop is one link.

* `Network.edges` lists every edge once, from its lower end.
* `Network.links` and `Network.population` look a node up.
* `Network.totalWeight` adds the edges up one after the other, `Network.totalWeightByBlocks` block
  of nodes by block of nodes.
-/

namespace Communities

/-- An edge between two nodes, or a loop. -/
structure Edge (W : Type) where
  /-- One end. -/
  source : Nat
  /-- The other end. -/
  target : Nat
  /-- The weight. -/
  weight : W
  deriving DecidableEq, Repr

/-- An edge seen from one of its ends. -/
structure Link (W : Type) where
  /-- The other end. -/
  target : Nat
  /-- The weight. -/
  weight : W
  deriving DecidableEq, Repr

/-- A node with all that is attached to it. -/
structure Node (W : Type) where
  /-- The number of vertices it stands for. -/
  population : W
  /-- Its links, by ascending target. -/
  links : List (Link W)
  deriving DecidableEq, Repr

/-- The links of a node that lead upwards or back to itself, where `id` is its own id. -/
def Node.upward {W : Type} (self : Node W) (id : Nat) : List (Link W) :=
  self.links.filter (id ≤ ·.target)

/-- An undirected weighted network. -/
structure Network (W : Type) where
  /-- The nodes; the id of a node is its position. -/
  nodes : Array (Node W)
  /-- The number of edges, loops included. -/
  edgeCount : Nat
  deriving DecidableEq, Repr

/-- A list cut into blocks of `size` entries, the last one maybe shorter; a size of zero counts as
one. -/
def blocks {α : Type} (size : Nat) : List α → List (List α)
  | [] => []
  | x :: xs => (x :: xs.take (size - 1)) :: blocks size (xs.drop (size - 1))
termination_by xs => xs.length
decreasing_by
  rw [List.length_drop, List.length_cons]
  omega

namespace Network

variable {W : Type}

/-- The network without nodes. -/
def empty : Network W := ⟨#[], 0⟩

/-- The number of nodes. -/
def size (net : Network W) : Nat := net.nodes.size

/-- The number of vertices that `node` stands for. -/
def population (net : Network W) (node : Nat) : Except Fault W := do
  return (← fetch net.nodes node).population

/-- The links of `node`. Ids are 32-bit numbers, so a larger one is looked up by its remainder; a
link found there is one of another node. -/
def links (net : Network W) (node : Nat) : Except Fault (List (Link W)) := do
  let self ← fetch net.nodes (node % idBound)
  if node < idBound ∨ self.links.isEmpty then return self.links else .error .strayLink

/-- Every edge once, by ascending lower end, then ascending upper end. -/
def edges (net : Network W) : List (Edge W) :=
  net.nodes.toList.zipIdx.flatMap fun (self, node) =>
    (self.upward node).map fun link => ⟨node, link.target, link.weight⟩

variable [Weight W]

/-- The number of vertices. -/
def totalPopulation (net : Network W) : W :=
  Weight.sum (net.nodes.toList.map (·.population))

/-- The weight of all edges, each counted once. -/
def totalWeight (net : Network W) : W :=
  Weight.sum (net.edges.map (·.weight))

/-- The number of nodes whose edges are added up together. -/
def blockSize : Nat := 256

/-- The weight of all edges, added up node by node within blocks of nodes. The id of a node is
reckoned from the number of its block and its place there. -/
def totalWeightByBlocks (net : Network W) : W :=
  Weight.sum <| (blocks blockSize net.nodes.toList).mapIdx fun number block =>
    Weight.sum <| block.mapIdx fun place self =>
      Weight.sum ((self.upward (number * blockSize + place)).map (·.weight))

end Network

end Communities
