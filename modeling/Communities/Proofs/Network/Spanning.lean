import Communities.Proofs.Modularity.Score

/-!
# Partitions of more nodes

A partition can have labels for nodes that a network does not have. Nothing that is done with the
two looks at these labels, so what holds of partitions of just the nodes holds of them too.

* `Partition.Spans`: each of `n` nodes, and maybe others, has a label below `count`;
  `Partition.Spans.exists_covers`: without the others it is a partition of `n` nodes.
* `Network.condense_congr`, `walkSums_congr`, `modularity_congr`, `blockTotals_congr` and
  `modularityByBlocks_congr`: partitions that agree on the nodes of a network condense it to the
  same, and add up to the same scores.
* `Network.exists_condense`: a network is condensed by every partition that spans its nodes, if the
  labels fit 32-bit ids.
-/

namespace Communities

namespace Partition

/-- Each of the nodes below `n` has a label below `count`. -/
structure Spans (p : Partition) (n : Nat) : Prop where
  /-- There is a label for each node. -/
  le_size : n ≤ p.labels.size
  /-- The labels are below `count`. -/
  labelAt_lt : ∀ v < n, p.labelAt v < p.count

/-- The partitions say the same of the nodes below `n`. -/
structure AgreesBelow (p : Partition) (n : Nat) (q : Partition) : Prop where
  /-- They have as many labels. -/
  count_eq : p.count = q.count
  /-- These nodes have the same labels in both. -/
  labels_eq : ∀ v < n, p.labels[v]? = q.labels[v]?

variable {p q : Partition} {n v : Nat}

theorem AgreesBelow.label_eq (h : p.AgreesBelow n q) (hv : v < n) : p.label v = q.label v := by
  unfold label fetch
  rw [h.labels_eq v hv]

theorem AgreesBelow.labelAt_eq (h : p.AgreesBelow n q) (hv : v < n) :
    p.labelAt v = q.labelAt v := by
  unfold labelAt
  rw [Array.getD_eq_getD_getElem?, Array.getD_eq_getD_getElem?, h.labels_eq v hv]

theorem Covers.spans (h : p.Covers n) : p.Spans n := ⟨Nat.le_of_eq h.size_eq.symm, h.labelAt_lt⟩

/-- The labels of the nodes below `n` are a partition of these. -/
theorem Spans.exists_covers (h : p.Spans n) :
    ∃ q : Partition, q.Covers n ∧ p.AgreesBelow n q := by
  have hsize := h.le_size
  have hagree : p.AgreesBelow n ⟨p.labels.extract 0 n, p.count⟩ := by
    refine ⟨rfl, fun v hv => ?_⟩
    simp [hv, Nat.min_eq_left hsize]
  refine ⟨_, ⟨by simp [hsize], fun v hv => ?_⟩, hagree⟩
  rw [← hagree.labelAt_eq hv]
  exact h.labelAt_lt v hv

end Partition

variable {W : Type} [Weight W] {net : Network W} {p q : Partition}

/-! ## Condensing -/

namespace Network

private theorem classPopulations_congr (h : p.AgreesBelow net.size q) :
    net.classPopulations p = net.classPopulations q := by
  unfold classPopulations
  rw [h.count_eq]
  refine foldlM_congr (fun x hx table => ?_) _
  have hlt : x.2 < net.size := by simpa [size] using (List.mem_zipIdx hx).2.1
  simp only [h.label_eq hlt]

omit [Weight W] in
private theorem classEdges_congr (hnet : net.Canonical) (h : p.AgreesBelow net.size q) :
    net.classEdges p = net.classEdges q := by
  unfold classEdges
  refine mapM_congr fun e he => ?_
  obtain ⟨hs, ht⟩ := hnet.endsBelow e he
  rw [h.label_eq hs, h.label_eq ht]

theorem condense_congr (hnet : net.Canonical) (h : p.AgreesBelow net.size q) :
    net.condense p = net.condense q := by
  unfold condense
  rw [h.count_eq, classPopulations_congr h, classEdges_congr hnet h]

theorem exists_condense (hnet : net.Canonical) (hp : p.Spans net.size)
    (hcount : p.count < idBound) : ∃ top, net.condense p = .ok top := by
  obtain ⟨q, hq, hagree⟩ := hp.exists_covers
  obtain ⟨top, htop, -⟩ := condense_eq_ok hnet hq (hagree.count_eq ▸ hcount)
  exact ⟨top, (condense_congr hnet hagree).trans htop⟩

end Network

/-! ## Scores -/

theorem walkSums_congr (hnet : net.Canonical) (h : p.AgreesBelow net.size q) :
    walkSums net p = walkSums net q := by
  unfold walkSums
  rw [h.count_eq]
  refine congrArg _ (funext fun table => foldlM_congr (fun e he sums => ?_) _)
  obtain ⟨hs, ht⟩ := hnet.endsBelow e he
  rw [h.label_eq hs, h.label_eq ht]

theorem modularity_congr (hnet : net.Canonical) (h : p.AgreesBelow net.size q) :
    modularity net p = modularity net q := by
  rw [modularity_eq_walk, modularity_eq_walk, walkSums_congr hnet h]

private theorem blockSums_congr (hnet : net.Canonical) (h : p.AgreesBelow net.size q)
    {block : List (Node W × Nat)} (hblock : ∀ x ∈ block, x ∈ net.nodes.toList.zipIdx) :
    blockSums p block = blockSums q block := by
  unfold blockSums
  refine foldlM_congr (fun x hx sums => ?_) _
  obtain ⟨hlt, htarget⟩ := hnet.lt_of_mem_upward (hblock x hx)
  simp only [h.label_eq hlt]
  refine congrArg _ (funext fun own => foldlM_congr (fun link hlink sums => ?_) _)
  simp only [h.label_eq (htarget link hlink)]

theorem blockTotals_congr (hnet : net.Canonical) (h : p.AgreesBelow net.size q) :
    blockTotals net p = blockTotals net q := by
  unfold blockTotals
  exact congrArg _ (mapM_congr fun block hblock =>
    blockSums_congr hnet h fun x hx => mem_of_mem_blocks hblock hx)

private theorem classDegrees_congr (h : p.AgreesBelow net.size q) :
    classDegrees net.degrees p = classDegrees net.degrees q := by
  unfold classDegrees
  rw [h.count_eq]
  refine congrArg _ (funext fun table => foldlM_congr (fun x hx table => ?_) _)
  have hlt : x.2 < net.size := by simpa using (List.mem_zipIdx hx).2.1
  simp only [h.label_eq hlt]

theorem modularityByBlocks_congr (hnet : net.Canonical) (h : p.AgreesBelow net.size q) :
    modularityByBlocks net p = modularityByBlocks net q := by
  rw [modularityByBlocks_eq_blockTotals, modularityByBlocks_eq_blockTotals,
    blockTotals_congr hnet h, classDegrees_congr h]

end Communities
