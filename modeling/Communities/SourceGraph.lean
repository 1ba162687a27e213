import Communities.Network.Build
import Communities.Rejection

/-!
# Source graphs

A source graph is a graph as it comes from elsewhere: with a direction or not, with values of any
kind at its edges, with parallel edges, and with ids that may not have been looked at.

* `SourceGraph.ofEdges` is the graph of a list of edges, whose ends are checked.
* `Network.toSource` looks at a network as a source graph.
* `SourceGraph.toNetwork` weighs the edges and builds the network, if all weights are valid.
-/

namespace Communities

/-- An edge with a value. -/
structure SourceEdge (V : Type) where
  /-- One end. -/
  source : Nat
  /-- The other end. -/
  target : Nat
  /-- The value. -/
  value : V
  deriving DecidableEq, Repr

/-- A graph from elsewhere. -/
structure SourceGraph (V : Type) where
  /-- Whether its edges have a direction. -/
  directed : Bool
  /-- The number of its vertices; the ids should be below it. -/
  nodeCount : Nat
  /-- The edges, in the order of a visit. -/
  edges : List (SourceEdge V)
  deriving DecidableEq, Repr

/-- Accepts edges whose weights are valid, and names the first that has another one. -/
def checkEdges {W : Type} [Weight W] (es : List (Edge W)) : Except (Rejection W) Unit :=
  match es.find? fun e => ¬Weight.Valid e.weight with
  | some e => .error (.edgeWeight e.source e.target e.weight)
  | none => .ok ()

namespace SourceGraph

variable {V W : Type}

/-- The graph of `n` vertices with the given edges; an end that is no vertex is a fault. -/
def ofEdges (directed : Bool) (n : Nat) (edges : List (SourceEdge V)) :
    Except Fault (SourceGraph V) :=
  if edges.all fun e => e.source < n && e.target < n then
    .ok ⟨directed, n, edges⟩
  else
    .error .outOfRange

variable [Weight W]

/-- An edge with its value weighed; without a weight function every edge weighs one. -/
def weigh (weight : Option (V → W)) (e : SourceEdge V) : Edge W :=
  ⟨e.source, e.target, (weight.map (· e.value)).getD 1⟩

/-- An edge with its ends cut to 32 bits. -/
def cutEnds (e : Edge W) : Edge W := ⟨e.source % idBound, e.target % idBound, e.weight⟩

/-- The network of a graph with its edges weighed. The vertices must fit 32-bit ids; then the first
edge visited whose weight is not valid is rejected. -/
def toNetwork (g : SourceGraph V) (weight : Option (V → W)) :
    Except Fault (Except (Rejection W) (Network W)) := do
  if g.nodeCount < idBound then
    let edges := g.edges.map (weigh weight)
    match checkEdges edges with
    | .error e => return .error e
    | .ok () => return .ok (← Network.ofEdges g.nodeCount (edges.map cutEnds))
  else
    return .error (.tooManyNodes g.nodeCount)

end SourceGraph

/-- A network as a source graph, with its weights for values. -/
def Network.toSource {W : Type} (net : Network W) : SourceGraph W :=
  ⟨false, net.size, net.edges.map fun e => ⟨e.source, e.target, e.weight⟩⟩

end Communities
