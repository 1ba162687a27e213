import Communities.Network
import Communities.Roster

/-!
# Tallies

A tally adds up, for the one node whose turn it is, the weight of its links to each community. It
has an entry for every community id and is used for all nodes in turn: `Tally.clear` sets back
only those entries that a node has touched, and `Tally.blank` prepares it for another number of
communities.
-/

namespace Communities

/-- A table of `n` blank entries, in the storage of another one. -/
def reuse {α : Type} (table : Array α) (n : Nat) (blank : α) : Array α :=
  ((table.take n).map fun _ => blank).rightpad n blank

/-- The weights of one node's links, by community. -/
structure Tally (W : Type) where
  /-- The weight of the links to each community. -/
  weights : Array W
  /-- Whether the node has a link to each community. -/
  touched : Array Bool
  /-- The communities that the node has links to, each once. -/
  adjacent : List Nat
  deriving DecidableEq, Repr

namespace Tally

variable {W : Type} [Weight W]

/-- The tally without entries. -/
def empty : Tally W := ⟨#[], #[], []⟩

/-- A tally for `n` communities in which nothing is entered. -/
def blank (t : Tally W) (n : Nat) : Tally W :=
  ⟨reuse t.weights n 0, reuse t.touched n false, []⟩

/-- One more link, to a member of `community`. -/
def record (t : Tally W) (community : Nat) (weight : W) : Except Fault (Tally W) := do
  let ⟨weights, touched, adjacent⟩ := t
  let weights ← adjust weights community (· + weight)
  if ← fetch touched community then
    return ⟨weights, touched, adjacent⟩
  else
    return ⟨weights, ← adjust touched community fun _ => true, community :: adjacent⟩

/-- All links of `node`, which is itself not among its neighbours. -/
def collect (t : Tally W) (net : Network W) (r : Roster W) (node : Nat) :
    Except Fault (Tally W) := do
  (← net.links node).foldlM
    (fun t link => do
      if link.target = node then return t
      else t.record (← r.community link.target) link.weight)
    { t with adjacent := [] }

/-- The weight of the links to `community`. -/
def weight (t : Tally W) (community : Nat) : Except Fault W := fetch t.weights community

/-- The communities that have been entered, ascending. -/
def candidates (t : Tally W) : List Nat := t.adjacent.mergeSort

/-- The tally with the entries of the adjacent communities set back. -/
def clear (t : Tally W) : Except Fault (Tally W) := do
  let ⟨weights, touched, adjacent⟩ := t
  let weights ← adjacent.foldlM (fun table c => adjust table c fun _ => 0) weights
  let touched ← adjacent.foldlM (fun table c => adjust table c fun _ => false) touched
  return ⟨weights, touched, adjacent⟩

end Tally

/-! ## Laws -/

@[simp] theorem reuse_eq {α : Type} (table : Array α) (n : Nat) (blank : α) :
    reuse table n blank = Array.replicate n blank := by
  apply Array.ext
  · rw [reuse, Array.rightpad, Array.size_append, Array.size_replicate, Array.size_replicate]
    rw [Array.size_map, Array.take_eq_extract, Array.size_extract]
    omega
  · intro i h₁ h₂
    simp only [reuse, Array.rightpad, Array.getElem_append, Array.getElem_map,
      Array.getElem_replicate]
    split <;> rfl

end Communities
