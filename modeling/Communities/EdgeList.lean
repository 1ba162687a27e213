import Communities.Network.Build
import Communities.Text.Record

/-!
# Edge lists

A text with an edge on each line: the labels of two vertices, and a weight if it is not one. The
labels are 64-bit numbers; in ascending order they become the ids `0, 1, …`.

* `EdgeList.read` reads such a text.
* `EdgeList.toNetwork` is the network of the edges, `EdgeList.id?` the id of a label.
-/

namespace Communities

open Text

/-- The edges of a text. -/
structure EdgeList (W : Type) where
  /-- The labels of the vertices; the id of a vertex is the rank of its label. -/
  vertices : Ranking
  /-- The edges between ids, in the order of their lines. -/
  edges : List (Edge W)

namespace EdgeList

variable {W : Type}

/-- The number of vertices. -/
def size (es : EdgeList W) : Nat := es.vertices.size

/-- The id of a label. -/
def id? (es : EdgeList W) (label : Nat) : Option Nat := es.vertices.find? label

/-- The edge list of edges between labels. -/
def ofLabelled (es : List (Edge W)) : EdgeList W :=
  let vertices := Ranking.ofList (es.flatMap fun e => [e.source, e.target])
  ⟨vertices, es.map fun e => ⟨vertices.rank e.source, vertices.rank e.target, e.weight⟩⟩

variable [Weight W]

/-- The network of the edges. -/
def toNetwork (es : EdgeList W) : Except Fault (Network W) := Network.ofEdges es.size es.edges

/-- The weight of an edge, which is one where it is not written. -/
def readWeight (weights : WeightText W) (r : Record) : Except (TextError W) W := do
  let w ← if r.fields.length = 3 then r.field weights.read 2 else pure 1
  if Weight.Valid w then return w else .error (.badWeight r.line w)

/-- The edge on a line, between labels. -/
def readEdge (weights : WeightText W) (r : Record) : Except (TextError W) (Edge W) := do
  if 3 < r.fields.length then
    .error (.tooManyFields r.line)
  else
    let source ← r.number 0
    let target ← r.number 1
    return ⟨source, target, ← readWeight weights r⟩

/-- The edge list that a text holds. -/
def read (weights : WeightText W) (s : Source) : Except (TextError W) (EdgeList W) := do
  let es := ofLabelled (← s.mapRecords (readEdge weights))
  if es.size < idBound then return es else .error (.tooManyVertices es.size)

end EdgeList

end Communities
