import Communities.EdgeList
import Communities.Hierarchy

/-!
# Tables

The written form of a hierarchy: a line for each vertex with its label and its community at every
level, separated by commas, under a line of titles.
-/

namespace Communities

/-- A line of cells. -/
def tableLine (cells : List String) : String := ",".intercalate cells ++ "\n"

/-- The titles of a table with so many levels. -/
def tableTitles (levels : Nat) : List String :=
  "vertex" :: (List.range levels).map fun k => s!"level{k}"

variable {W : Type}

/-- The composed partitions of all levels. -/
def Hierarchy.partitions (h : Hierarchy W) : Except Fault (List (Array Nat)) :=
  (List.range h.levels.length).filterMapM h.partitionAt

/-- The cells of the vertex with the given label and id. -/
def tableCells (partitions : List (Array Nat)) (label id : Nat) : Except Fault (List String) := do
  return toString label :: (← partitions.mapM fun p => do return toString (← fetch p id))

/-- The table of a hierarchy over the vertices of an edge list. -/
def EdgeList.table (es : EdgeList W) (h : Hierarchy W) : Except Fault String := do
  let partitions ← h.partitions
  let rows ← es.vertices.values.toList.zipIdx.mapM fun (label, id) =>
    tableCells partitions label id
  return .join ((tableTitles partitions.length :: rows).map tableLine)

end Communities
