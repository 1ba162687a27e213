import Communities.Network.Parallel
import Communities.Partition

/-!
# Building networks

A network comes from a list of edges, or from another network by drawing each class of a partition
together into one node.

* `Network.ofEdges` joins nodes of population one. Parallel edges are merged and the rows ascend,
  so the network does not depend on the order of the list; an end that is no node is a fault.
* `Network.condense` adds up the populations of a class, the edges between two classes, and, as a
  loop, the edges within one. The total weight stays what it was.
-/

namespace Communities

/-- The node with one more link in front. -/
def Node.attach {W : Type} (self : Node W) (target : Nat) (weight : W) : Node W :=
  { self with links := ⟨target, weight⟩ :: self.links }

namespace Network

variable {W : Type}

/-- A network of the given populations without edges. -/
def unlinked (populations : Array W) : Network W := ⟨populations.map (⟨·, []⟩), 0⟩

/-- The network with one more edge, in front of those that its ends have. -/
def addEdge (net : Network W) (e : Edge W) : Except Fault (Network W) := do
  let nodes ← adjust net.nodes e.source (·.attach e.target e.weight)
  if e.source = e.target then
    return ⟨nodes, net.edgeCount + 1⟩
  else
    return ⟨← adjust nodes e.target (·.attach e.source e.weight), net.edgeCount + 1⟩

/-- The network with edges in front of those it has. -/
def addEdges (net : Network W) (es : List (Edge W)) : Except Fault (Network W) :=
  es.foldrM (fun e net => net.addEdge e) net

variable [Weight W]

/-- The network of `n` nodes of population one with the given edges. -/
def ofEdges (n : Nat) (es : List (Edge W)) : Except Fault (Network W) :=
  if n < idBound then
    (unlinked (Array.replicate n 1)).addEdges (mergeParallel es)
  else
    .error .tooManyNodes

/-- The population of each class. -/
def classPopulations (net : Network W) (p : Partition) : Except Fault (Array W) :=
  net.nodes.toList.zipIdx.foldlM
    (fun table (self, node) => do adjust table (← p.label node) (· + self.population))
    (Array.replicate p.count 0)

/-- The edges with their ends replaced by the classes these are in. -/
def classEdges (net : Network W) (p : Partition) : Except Fault (List (Edge W)) :=
  net.edges.mapM fun e => do return ⟨← p.label e.source, ← p.label e.target, e.weight⟩

/-- The network whose nodes are the classes of a partition. -/
def condense (net : Network W) (p : Partition) : Except Fault (Network W) := do
  if p.count < idBound then
    let populations ← net.classPopulations p
    let es ← net.classEdges p
    (unlinked populations).addEdges (mergeParallel es)
  else
    .error .tooManyNodes

end Network

end Communities
