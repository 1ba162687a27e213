import Communities.Proofs.Network.Aggregate

/-!
# Edges that say the same

A list can name its edges from either end, in parts, and in any order. In exact arithmetic the
network that is built from it shows none of that: it is known by which vertices are joined, and by
how much weight in all.

* `SameEdges`: two lists agree in these; `sameEdges_iff`: so they do if merging gives the same, and
  `SameEdges.of_perm`: if only the order of the edges and of their ends differs.
* `Network.ofEdges_congr`: such lists give the same network, and `Network.ofEdges_edges`: so does
  the list of the edges of a network.
-/

namespace Communities

variable {K : Type} [Field K] {es es' : List (Edge K)}

/-- The lists join the same vertices, by edges of the same weight in all. -/
structure SameEdges (es es' : List (Edge K)) : Prop where
  /-- Two vertices are joined in both or in none. -/
  joins : ∀ u v, (∃ e ∈ es, e.Joins u v) ↔ ∃ e ∈ es', e.Joins u v
  /-- The edges between them weigh the same together. -/
  weight_eq : ∀ u v, weightBetween es u v = weightBetween es' u v

theorem SameEdges.of_perm (h : (es.map Edge.raise).Perm (es'.map Edge.raise)) :
    SameEdges es es' := by
  have hjoins : ∀ (es : List (Edge K)) (u v : Nat),
      (∃ e ∈ es.map Edge.raise, e.Joins u v) ↔ ∃ e ∈ es, e.Joins u v := fun es u v => by
    simp only [List.mem_map, exists_exists_and_eq_and, Edge.joins_raise]
  refine ⟨fun u v => ?_, weightBetween_congr fun φ hφ => ?_⟩
  · rw [← hjoins es, ← hjoins es']
    exact exists_congr fun e => and_congr_left fun _ => h.mem_iff
  · rw [← edgeSum_raise hφ, edgeSum_perm h, edgeSum_raise hφ]

variable [LinearOrder K]

private theorem weightBetween_mergeParallel (es : List (Edge K)) (u v : Nat) :
    weightBetween (mergeParallel es) u v = weightBetween es u v :=
  weightBetween_congr (fun _ => edgeSum_mergeParallel) u v

/-- Merging forgets all but that. -/
theorem sameEdges_iff : SameEdges es es' ↔ mergeParallel es = mergeParallel es' := by
  constructor
  · intro h
    refine (ascending_mergeParallel es).ext (ascending_mergeParallel es') (fun u v => ?_)
      fun u v => ?_
    · rw [joins_mergeParallel, joins_mergeParallel, h.joins]
    · rw [weightBetween_mergeParallel, weightBetween_mergeParallel, h.weight_eq]
  · intro h
    refine ⟨fun u v => ?_, fun u v => ?_⟩
    · rw [← joins_mergeParallel, h, joins_mergeParallel]
    · rw [← weightBetween_mergeParallel, h, weightBetween_mergeParallel]

/-- Edges that are merged already stay as they are. -/
theorem Ascending.mergeParallel_eq (h : Ascending es) : mergeParallel es = es :=
  (ascending_mergeParallel es).ext h (fun _ _ => joins_mergeParallel)
    (weightBetween_mergeParallel es)

namespace Network

theorem ofEdges_congr (h : SameEdges es es') (n : Nat) : ofEdges n es = ofEdges n es' := by
  rw [ofEdges, ofEdges, sameEdges_iff.1 h]

/-- The network of the edges of a network is that network. -/
theorem ofEdges_edges {n : Nat} {net : Network K} (h : ofEdges n es = .ok net) :
    ofEdges net.size net.edges = .ok net := by
  have hmerged : mergeParallel net.edges = mergeParallel es := by
    rw [(ofEdges_canonical h).ascending.mergeParallel_eq, edges_ofEdges h]
  rw [size_ofEdges h, ofEdges_congr (sameEdges_iff.2 hmerged), h]

end Network

end Communities
