import Communities.Fault
import Communities.Ranking

/-!
# Partitions

A partition gives each of the nodes `0, 1, …` one label below `count`. Labels may be left unused.

* `Partition.ofLabels` makes the labels dense: each becomes its rank among the labels that occur.
* `Partition.set` moves one node, and raises `count` where the new label asks for it.
* `Partition.classes` lists the nodes of each label.
-/

namespace Communities

/-- A label for every node. -/
structure Partition where
  /-- The label of each node. -/
  labels : Array Nat
  /-- The labels are below this number. -/
  count : Nat
  deriving DecidableEq, Repr

namespace Partition

/-- The partition of no nodes. -/
def empty : Partition := ⟨#[], 0⟩

/-- Every node alone, labelled by itself. -/
def singletons (n : Nat) : Partition := ⟨Array.range n, n⟩

/-- Dense labels in the order of the given ones. -/
def ofLabels (labels : Array Nat) : Partition :=
  let ranking := Ranking.ofList labels.toList
  ⟨labels.map ranking.rank, ranking.size⟩

/-- The number of nodes. -/
def size (p : Partition) : Nat := p.labels.size

/-- The label of `node`. -/
def label (p : Partition) (node : Nat) : Except Fault Nat := fetch p.labels node

/-- The partition with `node` relabelled. -/
def set (p : Partition) (node label : Nat) : Except Fault Partition := do
  let labels ← adjust p.labels node fun _ => label
  if label < p.count then
    return ⟨labels, p.count⟩
  else if label + 1 < countBound then
    return ⟨labels, label + 1⟩
  else
    .error .labelOverflow

/-- The nodes of each label, ascending. -/
def classes (p : Partition) : Except Fault (Array (List Nat)) := do
  let blank ← blankLists p.count
  p.labels.toList.zipIdx.foldrM (fun (label, node) table => adjust table label (node :: ·)) blank

@[simp] theorem size_singletons (n : Nat) : (singletons n).size = n := by
  simp [singletons, size]

@[simp] theorem size_ofLabels (labels : Array Nat) : (ofLabels labels).size = labels.size := by
  simp [ofLabels, size]

end Partition

end Communities
