import Communities.Modularity
import Communities.Proofs.Network.Scale

/-!
# The score in another unit

A score adds up quotients of weights, so it is the same in every unit.

* `blockSums_scale` and `classDegrees_scale`: the sums that it takes have the unit of the weights.
* `score_scale`: it has none itself. `modularityByBlocks_scale`: the score of a partition.
-/

namespace Communities

/-- The blocks of an image are the images of the blocks. -/
theorem blocks_map {α β : Type} (f : α → β) (size : Nat) (xs : List α) :
    blocks size (xs.map f) = (blocks size xs).map (List.map f) := by
  fun_induction blocks size xs with
  | case1 => rw [List.map_nil, blocks, List.map_nil]
  | case2 x xs ih =>
    rw [List.map_cons, blocks, ← List.map_drop, ih, ← List.map_take, List.map_cons, List.map_cons]

variable {K : Type} [Field K] [LinearOrder K] (k : K)

omit [LinearOrder K] in
theorem blankWeights_scale (n : Nat) :
    blankWeights n 0 = (blankWeights n 0).map (Array.map (k * ·)) := by
  rw [blankWeights, blankTable]
  split
  · exact congrArg Except.ok (by simp)
  · rfl

theorem classDegrees_scale (d : Degrees K) (p : Partition) :
    classDegrees (d.scale k) p = (classDegrees d p).map (Array.map (k * ·)) := by
  rw [classDegrees, classDegrees]
  refine bind_hom (blankWeights_scale k p.count) fun table => ?_
  rw [Degrees.scale, Array.toList_map, List.zipIdx_map, List.foldlM_map]
  refine foldlM_hom _ (fun table entry => ?_) d.byNode.toList.zipIdx table
  exact bind_hom_right fun label => adjust_add_scale k table label entry.1

omit [LinearOrder K] in
private theorem zero_pair_scale : ((0, 0) : K × K) = Prod.map (k * ·) (k * ·) (0, 0) := by
  simp

theorem blockSums_scale (p : Partition) (block : List (Node K × Nat)) :
    blockSums p (block.map (Prod.map (.scale k) id)) =
      (blockSums p block).map (Prod.map (k * ·) (k * ·)) := by
  rw [blockSums, blockSums, List.foldlM_map]
  conv_lhs => rw [zero_pair_scale k]
  refine foldlM_hom (Prod.map (k * ·) (k * ·)) (fun sums entry => ?_) block (0, 0)
  obtain ⟨self, node⟩ := entry
  dsimp only [Prod.map_apply, id]
  refine bind_hom_right fun own => ?_
  rw [Network.upward_scale, List.foldlM_map]
  refine foldlM_hom (Prod.map (k * ·) (k * ·)) (fun sums link => ?_) _ sums
  refine bind_hom_right fun label => ?_
  split_ifs
  · refine congrArg Except.ok (Prod.ext ?_ ?_)
    · simp [Link.scale, mul_add, mul_left_comm]
    · simp [Link.scale, mul_add]
  · refine congrArg Except.ok (Prod.ext rfl ?_)
    simp [Link.scale, mul_add]

variable {k}

theorem score_scale (hk : k ≠ 0) (internal m : K) (ds : List K) :
    score (k * internal) (k * m) (ds.map (k * ·)) = score internal m ds := by
  have hstep (rest d : K) : k * rest - k * d * (k * d) / (k * m) = k * (rest - d * d / m) := by
    rw [mul_assoc, mul_div_mul_left _ _ hk, mul_left_comm, mul_div_assoc, mul_sub]
  have hfold := @List.foldl_hom _ _ _ (k * ·) (fun rest d => rest - d * d / m)
    (fun rest d => rest - k * d * (k * d) / (k * m)) ds internal hstep
  rw [score, score, List.foldl_map, hfold]
  by_cases hm : m = 0
  · simp [hm]
  · simp [hm, hk, mul_div_mul_left]

theorem modularityByBlocks_scale (hk : k ≠ 0) (net : Network K) (p : Partition) :
    modularityByBlocks (net.scale k) p = modularityByBlocks net p := by
  have hsums : (blocks (net.size / 64) net.nodes.toList.zipIdx).mapM
        (blockSums p ∘ List.map (Prod.map (Node.scale k) id)) =
      ((blocks (net.size / 64) net.nodes.toList.zipIdx).mapM (blockSums p)).map
        (List.map (Prod.map (k * ·) (k * ·))) :=
    mapM_hom (blockSums_scale k p) _
  have htotals (sums : List (K × K)) :
      (sums.map (Prod.map (k * ·) (k * ·))).foldl (fun x y => (x.1 + y.1, x.2 + y.2)) (0, 0) =
        Prod.map (k * ·) (k * ·) (sums.foldl (fun x y => (x.1 + y.1, x.2 + y.2)) (0, 0)) := by
    rw [List.foldl_map]
    conv_lhs => rw [zero_pair_scale k]
    refine List.foldl_hom (Prod.map (k * ·) (k * ·)) fun x y => ?_
    exact Prod.ext (mul_add k x.1 y.1).symm (mul_add k x.2 y.2).symm
  rw [modularityByBlocks, modularityByBlocks, Network.size_scale, Network.zipIdx_scale, blocks_map,
    List.mapM_map, Network.degrees_scale]
  refine bind_eq_of_map hsums fun sums => ?_
  simp only [htotals, Prod.map]
  refine bind_eq_of_map (classDegrees_scale k net.degrees p) fun ds => ?_
  rw [Array.toList_map, mul_left_comm, score_scale hk]

end Communities
