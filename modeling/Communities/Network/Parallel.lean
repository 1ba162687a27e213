import Communities.Network

/-!
# Parallel edges

Edges between the same two ends, in either direction, are one edge with their summed weight.

* `mergeParallel` lists the merged edges by ascending lower end, then ascending upper end. The
  weight of each is zero plus the given weights in their given order, so the sum does not depend
  on what stands between them.
-/

namespace Communities

namespace Edge

variable {W : Type}

/-- The edge with its lower end as source. -/
def raise (e : Edge W) : Edge W :=
  if e.source ≤ e.target then e else ⟨e.target, e.source, e.weight⟩

/-- The order of edges: by source, then by target. -/
def atMost (a b : Edge W) : Bool :=
  a.source < b.source || (a.source == b.source && a.target ≤ b.target)

/-- Both edges have the same ends in the same roles. -/
def Parallel (a b : Edge W) : Prop := a.source = b.source ∧ a.target = b.target

instance (a b : Edge W) : Decidable (Parallel a b) := inferInstanceAs (Decidable (_ ∧ _))

/-- Adds the next edge of a sorted list to the merged ones, the latest of which comes first. -/
def absorb [Weight W] (merged : List (Edge W)) (e : Edge W) : List (Edge W) :=
  match merged with
  | [] => [{ e with weight := 0 + e.weight }]
  | last :: rest =>
    if last.Parallel e then { last with weight := last.weight + e.weight } :: rest
    else { e with weight := 0 + e.weight } :: last :: rest

end Edge

/-- The edges with parallel ones merged, in ascending order. -/
def mergeParallel {W : Type} [Weight W] (es : List (Edge W)) : List (Edge W) :=
  (((es.map Edge.raise).mergeSort Edge.atMost).foldl Edge.absorb []).reverse

end Communities
