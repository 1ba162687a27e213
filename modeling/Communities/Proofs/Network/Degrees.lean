import Communities.Network.Degrees
import Communities.Proofs.Modularity.Quality
import Communities.Proofs.Network.Condense

/-!
# Degrees as sums over edges

In exact arithmetic what the rows of a canonical network add up to can be read off its edges.

* `Network.sum_row`: a weighted sum over the links of a node is one over the edges that end there.
  `Network.sum_filter_row`: the links that lead to the other members of a class.
* `Network.Canonical.byNode_eq` and `Network.Canonical.total_eq`: the degrees are the weights of
  the edge ends at each node, and their total is twice the weight of the edges.
-/

namespace Communities

/-- The degree of a node, zero if there is no such node. -/
def Degrees.degreeAt {W : Type} [Weight W] (d : Degrees W) (v : Nat) : W := d.byNode.getD v 0

theorem Degrees.degree_eq_ok {W : Type} [Weight W] {d : Degrees W} {v : Nat}
    (hv : v < d.byNode.size) : d.degree v = .ok (d.degreeAt v) := by
  rw [degree, fetch_of_lt hv, degreeAt, Array.getD, dif_pos hv]
  rfl

@[simp] theorem Network.size_byNode {W : Type} [Weight W] (net : Network W) :
    net.degrees.byNode.size = net.size := by
  simp [degrees, size]

variable {K : Type} [Field K]

theorem sum_map_range (n : Nat) (g : Nat → K) :
    ((List.range n).map g).sum = ∑ i ∈ Finset.range n, g i := rfl

theorem sum_map_filter_range (n : Nat) (p : Nat → Prop) [DecidablePred p] (g : Nat → K) :
    (((List.range n).filter (p ·)).map g).sum = ∑ i ∈ Finset.range n with p i, g i := rfl

private theorem sum_filterMap_seenFrom (es : List (Edge K)) (u : Nat) (ψ : Nat → K) :
    ((es.filterMap (Edge.seenFrom u)).map fun link => link.weight * ψ link.target).sum =
      edgeSum es fun s t => if s = u then ψ t else if t = u then ψ s else 0 := by
  induction es with
  | nil => rfl
  | cons e es ih =>
    rw [edgeSum_cons, ← ih, List.filterMap_cons, Edge.seenFrom]
    by_cases hs : e.source = u
    · simp [hs]
    · by_cases ht : e.target = u <;> simp [hs, ht]

namespace Network

variable {net : Network K} {u : Nat}

theorem sum_row (hnet : net.Canonical) (hu : u < net.size) (ψ : Nat → K) :
    ((net.row u).map fun link => link.weight * ψ link.target).sum =
      edgeSum net.edges fun s t => if s = u then ψ t else if t = u then ψ s else 0 := by
  rw [hnet.row_eq hu, sum_filterMap_seenFrom]

/-- The links of a node to the other members of a class. -/
theorem sum_filter_row (hnet : net.Canonical) (hu : u < net.size) (f : Nat → Nat) (c : Nat) :
    (((net.row u).filter fun link => link.target ≠ u ∧ f link.target = c).map (·.weight)).sum =
      linkWeight net.edges f u c := by
  have hmul : (((net.row u).filter fun link => link.target ≠ u ∧ f link.target = c).map
      (·.weight)).sum = ((net.row u).map fun link => link.weight *
        if link.target = u then 0 else if f link.target = c then 1 else 0).sum := by
    induction net.row u with
    | nil => rfl
    | cons link row ih =>
      rw [List.map_cons, List.sum_cons, ← ih]
      by_cases hloop : link.target = u
      · simp [hloop]
      · by_cases hc : f link.target = c <;> simp [hloop, hc]
  rw [hmul, sum_row hnet hu fun v => if v = u then 0 else if f v = c then 1 else 0, linkWeight]
  refine edgeSum_congr fun e _ => ?_
  by_cases hs : e.source = u
  · by_cases ht : e.target = u
    · simp [hs, ht]
    · simp [hs, ht, Ne.symm ht]
  · by_cases ht : e.target = u
    · simp [hs, ht]
    · simp [hs, ht]

variable [LinearOrder K]

private theorem degree_row (hnet : net.Canonical) (hu : u < net.size) :
    Weight.sum ((net.row u).map fun link =>
      if link.target = u then Weight.two * link.weight else link.weight) = nodeEnds net.edges u := by
  have hmap : ((net.row u).map fun link =>
      if link.target = u then Weight.two * link.weight else link.weight) =
      (net.row u).map fun link => link.weight * if link.target = u then 2 else 1 := by
    refine List.map_congr_left fun link _ => ?_
    split
    · rw [Weight.two_eq (K := K)]; ring
    · ring
  rw [Weight.sum_eq, hmap, sum_row hnet hu fun t => if t = u then 2 else 1, nodeEnds,
    endSum]
  refine edgeSum_congr fun e _ => ?_
  by_cases hs : e.source = u
  · by_cases ht : e.target = u
    · simp only [hs, ht, if_true]; norm_num
    · simp [hs, ht]
  · by_cases ht : e.target = u <;> simp [hs, ht]

namespace Canonical

theorem byNode_eq (hnet : net.Canonical) :
    net.degrees.byNode.toList = (List.range net.size).map (nodeEnds net.edges) := by
  apply List.ext_getElem
  · simp
  · intro u h₁ h₂
    have hu : u < net.size := by simpa using h₂
    have hu' : u < net.nodes.size := hu
    rw [List.getElem_map, List.getElem_range, ← degree_row hnet hu]
    simp [degrees, Node.degree, row, hu']

theorem degreeAt_eq (hnet : net.Canonical) (hu : u < net.size) :
    net.degrees.degreeAt u = nodeEnds net.edges u := by
  have h := List.getElem_of_eq hnet.byNode_eq (i := u) (by simpa using hu)
  rw [List.getElem_map, List.getElem_range] at h
  rw [← h, Degrees.degreeAt, Array.getD, dif_pos (by simpa using hu)]
  rfl

theorem total_eq (hnet : net.Canonical) : net.degrees.total = volume net.edges := by
  rw [← volume_eq_sum hnet.endsBelow, ← sum_map_range, ← hnet.byNode_eq, ← Weight.sum_eq]
  rfl

end Canonical

/-- Two nodes joined by an edge of weight one. -/
def pair : Network ℚ := ⟨#[⟨1, [⟨1, 1⟩]⟩, ⟨1, [⟨0, 1⟩]⟩], 1⟩

theorem built_pair : pair.Built :=
  @Built.ofEdges ℚ _ 2 [⟨0, 1, 1⟩] pair (by decide +kernel)

/-- A triangle with a tail. -/
def kite : Network ℚ :=
  ⟨#[⟨1, [⟨1, 2⟩, ⟨2, 1⟩, ⟨3, 2⟩]⟩, ⟨1, [⟨0, 2⟩, ⟨2, 1⟩]⟩, ⟨1, [⟨0, 1⟩, ⟨1, 1⟩]⟩, ⟨1, [⟨0, 2⟩]⟩], 4⟩

theorem built_kite : kite.Built :=
  @Built.ofEdges ℚ _ 4 [⟨0, 1, 2⟩, ⟨0, 2, 1⟩, ⟨1, 2, 1⟩, ⟨0, 3, 2⟩] kite (by cbv)

end Network

end Communities
