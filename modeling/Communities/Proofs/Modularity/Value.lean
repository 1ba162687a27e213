import Communities.Proofs.Network.Conserve

/-!
# The value of a score

There are two ways to the modularity of a partition, and three to the weight of a network. In exact
arithmetic they lead to the same numbers, whatever the signs of the weights and wherever the blocks
end, and where no weight is negative the modularity has its range.

* `Network.totalWeightByBlocks_eq_zipIdx`: the ids that are reckoned within blocks are right.
* `Network.totalWeightByBlocks_eq` and `Network.Canonical.total_eq_two_mul`: the weight by blocks,
  and by degrees.
* `scores_of_spans` and `scores_of_table`: both scores of a partition are its quality, or both fail
  for the size of their table.
* `Network.scores_agree`: the two scores are one, and divide by one total.
* `Network.modularity_range`: it is at least `-1/2` and less than `1`, and `0` for a single class.
-/

namespace Communities

/-! ## Ids within blocks -/

theorem mapIdx_add_eq {α β : Type} (f : α → Nat → β) (xs : List α) (start : Nat) :
    xs.mapIdx (fun place x => f x (start + place)) = (xs.zipIdx start).map fun x => f x.1 x.2 := by
  rw [List.mapIdx_eq_zipIdx_map, List.zipIdx_eq_map_add (i := start), List.map_map]
  rfl

theorem take_zipIdx {α : Type} (xs : List α) (k start : Nat) :
    (xs.zipIdx start).take k = (xs.take k).zipIdx start := by
  refine List.ext_getElem? fun i => ?_
  rw [List.getElem?_take, List.getElem?_zipIdx, List.getElem?_zipIdx, List.getElem?_take]
  split <;> rfl

theorem drop_zipIdx {α : Type} (xs : List α) (k start : Nat) :
    (xs.zipIdx start).drop k = (xs.drop k).zipIdx (start + k) := by
  refine List.ext_getElem? fun i => ?_
  rw [List.getElem?_drop, List.getElem?_zipIdx, List.getElem?_zipIdx, List.getElem?_drop,
    Nat.add_assoc]

/-- The places in a block go on from those in the blocks before it. -/
theorem map_blocks_zipIdx {α β : Type} {size : Nat} (hsize : 0 < size) (g : List (α × Nat) → β)
    (xs : List α) (start : Nat) :
    (blocks size (xs.zipIdx start)).map g =
      (blocks size xs).mapIdx fun number block => g (block.zipIdx (start + number * size)) := by
  fun_induction blocks size xs generalizing start with
  | case1 => simp [blocks]
  | case2 x xs ih =>
    have hnext : start + 1 + (size - 1) = start + size := by omega
    rw [List.zipIdx_cons, blocks, take_zipIdx, drop_zipIdx, hnext, List.map_cons, ih,
      List.mapIdx_cons, List.zipIdx_cons]
    simp only [Nat.zero_mul, Nat.add_zero, Nat.succ_mul, Nat.add_assoc, Nat.add_comm size]

namespace Network

/-- The ids that are reckoned within the blocks are those of the nodes. -/
theorem totalWeightByBlocks_eq_zipIdx {W : Type} [Weight W] (net : Network W) :
    net.totalWeightByBlocks = Weight.sum ((blocks blockSize net.nodes.toList.zipIdx).map fun block =>
      Weight.sum (block.map fun x => Weight.sum ((x.1.upward x.2).map (·.weight)))) := by
  rw [map_blocks_zipIdx (by decide), totalWeightByBlocks]
  simp only [Nat.zero_add, mapIdx_add_eq fun (self : Node W) id =>
    Weight.sum ((self.upward id).map (·.weight))]

end Network

/-! ## The total weight -/

section Totals

variable {K : Type} [Field K] {net : Network K}

theorem sum_map_blocks {α : Type} (size : Nat) (xs : List α) (f : α → K) :
    ((blocks size xs).map fun block => (block.map f).sum).sum = (xs.map f).sum := by
  conv_rhs => rw [← flatten_blocks size xs]
  rw [List.map_flatten, List.sum_flatten, List.map_map]
  rfl

variable [LinearOrder K]

namespace Network

theorem totalWeightByBlocks_eq (net : Network K) : net.totalWeightByBlocks = net.totalWeight := by
  have hnodes : net.totalWeight = (net.nodes.toList.zipIdx.map fun x =>
      ((x.1.upward x.2).map (·.weight)).sum).sum := by
    rw [totalWeight, Weight.sum_eq, edges, List.map_flatMap, List.flatMap, List.sum_flatten,
      List.map_map]
    simp only [List.map_map, Function.comp_def]
  rw [totalWeightByBlocks_eq_zipIdx, hnodes]
  simp only [Weight.sum_eq]
  exact sum_map_blocks blockSize _ _

theorem Canonical.total_eq_two_mul (hnet : net.Canonical) :
    net.degrees.total = 2 * net.totalWeight := by
  rw [hnet.total_eq, volume_eq, totalWeight_eq_edgeSum]

end Network

end Totals

/-! ## The scores -/

section Scores

variable {K : Type} [Field K] [LinearOrder K] {net : Network K} {p : Partition}

theorem scores_of_spans (hnet : net.Canonical) (hp : p.Spans net.size)
    (hcount : 8 * p.count < tableBytes) :
    modularity net p = .ok (quality net.edges p.labelAt) ∧
      modularityByBlocks net p = .ok (quality net.edges p.labelAt) := by
  obtain ⟨q, hq, hagree⟩ := hp.exists_covers
  have hcount' : 8 * q.count < tableBytes := hagree.count_eq ▸ hcount
  have hquality : quality net.edges p.labelAt = quality net.edges q.labelAt :=
    quality_congr hnet.endsBelow fun u hu v hv => by
      rw [hagree.labelAt_eq hu, hagree.labelAt_eq hv]
  rw [modularity_congr hnet hagree, modularityByBlocks_congr hnet hagree, hquality]
  exact ⟨modularity_eq_ok hnet hq hcount', modularityByBlocks_eq_ok hnet hq hcount'⟩

theorem blockTotals_of_spans (hnet : net.Canonical) (hp : p.Spans net.size) :
    ∃ sums, blockTotals net p = .ok sums ∧ Weight.two * sums.2 = volume net.edges := by
  obtain ⟨q, hq, hagree⟩ := hp.exists_covers
  obtain ⟨sums, hsums, -, hm⟩ := blockTotals_eq_ok hnet hq
  exact ⟨sums, (blockTotals_congr hnet hagree).trans hsums, hm⟩

/-- The blocks are added up before the table is made, but nothing can go wrong there. -/
theorem scores_of_table (hnet : net.Canonical) (hp : p.Spans net.size)
    (hcount : ¬8 * p.count < tableBytes) :
    modularity net p = .error .tableTooLarge ∧
      modularityByBlocks net p = .error .tableTooLarge := by
  obtain ⟨sums, hsums, -⟩ := blockTotals_of_spans hnet hp
  refine ⟨modularity_of_table hcount, ?_⟩
  rw [modularityByBlocks_eq_blockTotals, hsums, ok_bind, classDegrees, blankWeights, blankTable,
    if_neg hcount]
  rfl

theorem two_mul_total_of_walkSums (hnet : net.Canonical) (hp : p.Spans net.size)
    {sums : EdgeSums K} (h : walkSums net p = .ok sums) :
    Weight.two * sums.total = net.degrees.total := by
  obtain ⟨q, hq, hagree⟩ := hp.exists_covers
  rw [walkSums_congr hnet hagree] at h
  obtain ⟨table, htable, -⟩ := bind_eq_ok_iff.1 (show _ >>= _ = _ from h)
  obtain ⟨sums', hsums', -, hm, -⟩ := walkSums_eq_ok hnet.endsBelow hq (blankTable_eq_ok_iff.1 htable).1
  rw [h] at hsums'
  cases hsums'
  rw [hm, hnet.total_eq]

namespace Network

/-- Scoring a partition by the walk over the edges and by blocks of nodes is the same, and so is
adding up the weight; twice this weight is the total of the degrees, which is what gains are
measured by, and also the number that either score is divided by. -/
theorem scores_agree (hnet : net.Built) (hp : p.Spans net.size) :
    modularityByBlocks net p = modularity net p ∧
    (8 * p.count < tableBytes → ∃ q, modularity net p = .ok q) ∧
    net.totalWeightByBlocks = net.totalWeight ∧
    net.degrees.total = 2 * net.totalWeight ∧
    (∀ sums, walkSums net p = .ok sums → Weight.two * sums.total = net.degrees.total ∧
      modularity net p =
        .ok (score sums.internal net.degrees.total sums.ends.toList)) ∧
    ∃ sums, blockTotals net p = .ok sums ∧ Weight.two * sums.2 = net.degrees.total ∧
      modularityByBlocks net p = (classDegrees net.degrees p).map fun ends =>
        score sums.1 net.degrees.total ends.toList := by
  have hcanonical := hnet.canonical
  refine ⟨?_, fun hcount => ⟨_, (scores_of_spans hcanonical hp hcount).1⟩,
    totalWeightByBlocks_eq net, hcanonical.total_eq_two_mul, fun sums hsums => ?_, ?_⟩
  · by_cases hcount : 8 * p.count < tableBytes
    · obtain ⟨hwalk, hblocks⟩ := scores_of_spans hcanonical hp hcount
      rw [hwalk, hblocks]
    · obtain ⟨hwalk, hblocks⟩ := scores_of_table hcanonical hp hcount
      rw [hwalk, hblocks]
  · have hm := two_mul_total_of_walkSums hcanonical hp hsums
    exact ⟨hm, by rw [modularity_eq_walk, hsums, ← hm]; rfl⟩
  · obtain ⟨sums, hsums, hm⟩ := blockTotals_of_spans hcanonical hp
    rw [← hcanonical.total_eq] at hm
    refine ⟨sums, hsums, hm, ?_⟩
    rw [modularityByBlocks_eq_blockTotals, hsums, ok_bind, hm]
    rfl

/-- A network of weights with either sign, and a partition of more nodes than it has. -/
def signed : Network ℚ :=
  ⟨#[⟨1, [⟨1, -1⟩]⟩, ⟨1, [⟨0, -1⟩, ⟨1, 2⟩, ⟨2, 1 / 2⟩]⟩, ⟨1, [⟨1, 1 / 2⟩]⟩], 3⟩

theorem built_signed : signed.Built :=
  @Built.ofEdges ℚ _ 3 [⟨1, 0, -1⟩, ⟨1, 1, 2⟩, ⟨1, 2, 1 / 2⟩] signed (by
    rw [Weight.ofField_rat]
    cbv)

theorem scores_agree_signed :
    signed.Built ∧ (⟨#[0, 2, 2, 7], 4⟩ : Partition).Spans signed.size ∧
    modularityByBlocks signed ⟨#[0, 2, 2, 7], 4⟩ = .ok (-2 / 9) ∧
    modularity signed ⟨#[0, 2, 2, 7], 4⟩ = .ok (-2 / 9) ∧
    signed.totalWeightByBlocks = 3 / 2 ∧ signed.degrees.total = 3 := by
  have hp : (⟨#[0, 2, 2, 7], 4⟩ : Partition).Spans signed.size := ⟨by decide, by decide⟩
  obtain ⟨hscores, -, hweights, htotal, -⟩ := scores_agree built_signed hp
  have hscore : modularity signed ⟨#[0, 2, 2, 7], 4⟩ = .ok (-2 / 9) := by
    decide +kernel
  have hweight : signed.totalWeight = 3 / 2 := by decide +kernel
  exact ⟨built_signed, hp, hscores.trans hscore, hscore, hweights.trans hweight, by
    rw [htotal, hweight]; norm_num⟩

end Network

/-! ## The range -/

namespace Network

variable [IsStrictOrderedRing K]

/-- Where no weight is negative, both scores of a partition are at least `-1/2` and less than `1`,
and a partition into one class scores `0`. So do all partitions where no edge has weight. -/
theorem modularity_range (hnet : net.Built) (hweights : ∀ e ∈ net.edges, 0 ≤ e.weight)
    (hp : p.Spans net.size) :
    (8 * p.count < tableBytes → ∃ q, modularity net p = .ok q ∧ modularityByBlocks net p = .ok q) ∧
    ∀ q, modularity net p = .ok q ∨ modularityByBlocks net p = .ok q →
      -(1 / 2) ≤ q ∧ q < 1 ∧
      ((∀ u < net.size, ∀ v < net.size, p.labelAt u = p.labelAt v) → q = 0) := by
  have hcanonical := hnet.canonical
  refine ⟨fun hcount => ⟨_, scores_of_spans hcanonical hp hcount⟩, fun q hq => ?_⟩
  have hquality : q = quality net.edges p.labelAt := by
    by_cases hcount : 8 * p.count < tableBytes
    · obtain ⟨hwalk, hblocks⟩ := scores_of_spans hcanonical hp hcount
      rcases hq with hq | hq
      · exact Except.ok.inj (hq.symm.trans hwalk)
      · exact Except.ok.inj (hq.symm.trans hblocks)
    · obtain ⟨hwalk, hblocks⟩ := scores_of_table hcanonical hp hcount
      rcases hq with hq | hq
      · cases hq.symm.trans hwalk
      · cases hq.symm.trans hblocks
  subst hquality
  exact ⟨neg_half_le_quality hweights, quality_lt_one hweights,
    quality_of_const hcanonical.endsBelow⟩

/-- Two nodes that are joined and kept apart score no more than `-1/2`. -/
theorem modularity_range_pair :
    pair.Built ∧ (∀ e ∈ pair.edges, 0 ≤ e.weight) ∧ (Partition.singletons 2).Spans pair.size ∧
    modularity pair (.singletons 2) = .ok (-(1 / 2)) ∧
    -(1 / 2) ≤ (-(1 / 2) : ℚ) ∧ (-(1 / 2) : ℚ) < 1 ∧
    (⟨#[1, 1], 2⟩ : Partition).Spans pair.size ∧
    ∀ q, modularityByBlocks pair ⟨#[1, 1], 2⟩ = .ok q → q = 0 := by
  have hweights : ∀ e ∈ pair.edges, 0 ≤ e.weight := by decide +kernel
  have hapart : (Partition.singletons 2).Spans pair.size :=
    (Partition.fits_singletons 2).toCovers.spans
  have htogether : (⟨#[1, 1], 2⟩ : Partition).Spans pair.size := ⟨by decide, by decide⟩
  have hscore : modularity pair (.singletons 2) = .ok (-(1 / 2)) := by decide +kernel
  obtain ⟨hlow, hhigh, -⟩ := (modularity_range built_pair hweights hapart).2 _ (.inl hscore)
  exact ⟨built_pair, hweights, hapart, hscore, hlow, hhigh, htogether, fun q hq =>
    ((modularity_range built_pair hweights htogether).2 q (.inr hq)).2.2 (by decide)⟩

end Network

end Scores

end Communities
