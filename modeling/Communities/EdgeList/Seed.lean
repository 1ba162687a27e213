import Communities.EdgeList

/-!
# Seeds

A text with a vertex and its community on each line; further fields are ignored. Every vertex of an
edge list has to be named once, in any order.
-/

namespace Communities

open Text

namespace EdgeList

variable {W : Type}

/-- The communities named so far, by the id of the vertex. -/
abbrev Assignment := Array (Option Nat)

/-- The assignment with the one on a line added. -/
def assign (es : EdgeList W) (table : Assignment) (line vertex community : Nat) :
    Except (TextError W) Assignment :=
  match es.id? vertex with
  | none => .error (.unknownVertex line vertex)
  | some id =>
    if (table.getD id none).isSome then .error (.assignedTwice line vertex)
    else .ok (table.setIfInBounds id (some community))

/-- The community of every vertex by its id. -/
def completed (es : EdgeList W) (table : Assignment) : Except (TextError W) (Array Nat) :=
  (es.vertices.values.zip table).mapM fun (vertex, community) =>
    match community with
    | some c => .ok c
    | none => .error (.unassigned vertex)

/-- The label for each vertex that a text holds. -/
def readSeed (es : EdgeList W) (s : Source) : Except (TextError W) (Array Nat) := do
  let table ← s.foldRecords (Array.replicate es.size none) fun table r => do
    let vertex ← r.number 0
    let community ← r.number 1
    es.assign table r.line vertex community
  es.completed table

end EdgeList

end Communities
