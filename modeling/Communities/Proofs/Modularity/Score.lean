import Communities.Modularity
import Communities.Proofs.Network.Degrees

/-!
# The scores are the quality

Both ways of computing the modularity of a partition give its quality, in exact arithmetic.

* `modularity_eq_ok`: the walk over the edges, and `modularity_eq_ok_of_endsBelow`: for a partition
  of more nodes too; `walkSums_eq_ok`: what it adds up.
* `modularity_ofLabels`: the same for arbitrary labels, made dense first.
* `modularityByBlocks_eq_ok`: the sums within blocks of nodes, with the ends taken from the degrees;
  `blockTotals_eq_ok`: what the blocks add up to.
* `exists_modularityByBlocks`: these sums give a score in any arithmetic.
-/

namespace Communities

variable {K : Type} [Field K]

private theorem foldl_sub_squares (ds : List K) (internal m : K) :
    ds.foldl (fun rest d => rest - d * d / m) internal =
      internal - (ds.map fun d => d * d).sum / m := by
  induction ds generalizing internal with
  | nil => simp
  | cons d ds ih => rw [List.foldl_cons, ih, List.map_cons, List.sum_cons]; ring

variable [LinearOrder K]

/-- The score of the sums that belong to a partition is its quality. -/
private theorem score_eq_quality {es : List (Edge K)} {f : Nat → Nat} {n k : Nat}
    (hn : EndsBelow n es) (hf : ∀ v < n, f v < k) {ds : List K}
    (hds : ds = (List.range k).map (classEnds es f)) :
    score (innerWeight es f) (volume es) ds = quality es f := by
  have hsum : (ds.map fun d => d * d).sum = endSquares es f := by
    rw [hds, List.map_map, ← endSquares_eq_sum hn hf, ← sum_map_range]
    rfl
  rw [score, quality, foldl_sub_squares, hsum]
  simp only [beq_iff_eq]

/-! ## The walk over the edges -/

/-- What the walk over the edges adds up. -/
def walkSums {W : Type} [Weight W] (net : Network W) (p : Partition) :
    Except Fault (EdgeSums W) := do
  net.edges.foldlM
    (fun (sums : EdgeSums W) e => do sums.add (← p.label e.source) (← p.label e.target) e.weight)
    ⟨0, 0, ← blankWeights p.count 0⟩

private theorem add_eq_ok (sums : EdgeSums K) {a b : Nat} (ha : a < sums.ends.size)
    (hb : b < sums.ends.size) (w : K) :
    ∃ sums', sums.add a b w = .ok sums' ∧
      sums'.internal = sums.internal + 2 * (w * if a = b then 1 else 0) ∧
      sums'.total = sums.total + w ∧ sums'.ends.size = sums.ends.size ∧
      ∀ c < sums.ends.size, sums'.ends.getD c 0 =
        sums.ends.getD c 0 + w * ((if a = c then 1 else 0) + if b = c then 1 else 0) := by
  rw [EdgeSums.add, adjust_of_lt _ ha, ok_bind, adjust_of_lt _ (by rwa [Array.size_modify]),
    ok_bind]
  refine ⟨_, rfl, ?_, rfl, by simp, fun c hc => ?_⟩
  · split
    · rw [Weight.two_eq (K := K), mul_one]
    · ring
  · simp only [Array.getD, Array.size_modify, hc, dif_pos, Array.getInternal_eq_getElem,
      Array.getElem_modify]
    split <;> split <;> ring

private theorem foldlM_add {p : Partition} {n : Nat} (hp : p.Covers n) {es : List (Edge K)}
    (hn : EndsBelow n es) (sums : EdgeSums K) (hsums : sums.ends.size = p.count) :
    ∃ sums', es.foldlM (fun (sums : EdgeSums K) e => do
        sums.add (← p.label e.source) (← p.label e.target) e.weight) sums = Except.ok sums' ∧
      sums'.internal = sums.internal + innerWeight es p.labelAt ∧
      sums'.total = sums.total + edgeSum es (fun _ _ => 1) ∧ sums'.ends.size = p.count ∧
      ∀ c < p.count, sums'.ends.getD c 0 = sums.ends.getD c 0 + classEnds es p.labelAt c := by
  induction es generalizing sums with
  | nil => exact ⟨sums, rfl, by simp [innerWeight], by simp, hsums, by simp [classEnds, endSum]⟩
  | cons e es ih =>
    obtain ⟨hs, ht⟩ := hn e (by simp)
    obtain ⟨sums₁, hadd, hinternal₁, htotal₁, hsize₁, hends₁⟩ := add_eq_ok sums
      (hsums ▸ hp.labelAt_lt _ hs) (hsums ▸ hp.labelAt_lt _ ht) e.weight
    obtain ⟨sums', hfold, hinternal, htotal, hsize, hends⟩ :=
      ih (fun e' he' => hn e' (by simp [he'])) sums₁ (hsize₁.trans hsums)
    refine ⟨sums', ?_, ?_, ?_, hsize, fun c hc => ?_⟩
    · rw [List.foldlM_cons, hp.label_eq hs, hp.label_eq ht, ok_bind, ok_bind, hadd, ok_bind, hfold]
    · rw [hinternal, hinternal₁, innerWeight, innerWeight, edgeSum_cons]; ring
    · rw [htotal, htotal₁, edgeSum_cons]; ring
    · rw [hends c hc, hends₁ c (hsums ▸ hc), classEnds, classEnds, endSum, endSum, edgeSum_cons]
      ring

theorem modularity_eq_walk {W : Type} [Weight W] (net : Network W) (p : Partition) :
    modularity net p = (walkSums net p).map fun sums =>
      score sums.internal (Weight.two * sums.total) sums.ends.toList := by
  rw [modularity, walkSums, map_bind_eq]
  rfl

theorem walkSums_eq_ok {net : Network K} {p : Partition} {n : Nat} (hn : EndsBelow n net.edges)
    (hp : p.Covers n) (hcount : 8 * p.count < tableBytes) :
    ∃ sums, walkSums net p = .ok sums ∧ sums.internal = innerWeight net.edges p.labelAt ∧
      Weight.two * sums.total = volume net.edges ∧
      sums.ends.toList = (List.range p.count).map (classEnds net.edges p.labelAt) := by
  obtain ⟨sums, hfold, hinternal, htotal, hsize, hends⟩ :=
    foldlM_add hp hn ⟨0, 0, Array.replicate p.count 0⟩ (by simp)
  refine ⟨sums, ?_, by rw [hinternal, zero_add], ?_, ?_⟩
  · rw [walkSums, blankWeights_eq_ok _ hcount, ok_bind, hfold]
  · rw [htotal, volume_eq, Weight.two_eq (K := K)]
    simp
  · rw [toList_eq_map_getD sums.ends 0, hsize]
    refine List.map_congr_left fun c hc => ?_
    have hc : c < p.count := List.mem_range.1 hc
    simpa [hc] using hends c hc

/-- The walk looks at no nodes but the ends of edges. -/
theorem modularity_eq_ok_of_endsBelow {net : Network K} {p : Partition} {n : Nat}
    (hn : EndsBelow n net.edges) (hp : p.Covers n) (hcount : 8 * p.count < tableBytes) :
    modularity net p = .ok (quality net.edges p.labelAt) := by
  obtain ⟨sums, hsums, hinternal, hm, hends⟩ := walkSums_eq_ok hn hp hcount
  rw [modularity_eq_walk, hsums, Except.map, hinternal, hm,
    score_eq_quality hn hp.labelAt_lt hends]

theorem modularity_eq_ok {net : Network K} {p : Partition} (hnet : net.Canonical)
    (hp : p.Covers net.size) (hcount : 8 * p.count < tableBytes) :
    modularity net p = .ok (quality net.edges p.labelAt) :=
  modularity_eq_ok_of_endsBelow hnet.endsBelow hp hcount

/-! ## The sums within blocks -/

theorem flatten_blocks {α : Type} (size : Nat) (xs : List α) :
    (blocks size xs).flatten = xs := by
  fun_induction blocks size xs with
  | case1 => rfl
  | case2 x xs ih => rw [List.flatten_cons, ih, List.cons_append, List.take_append_drop]

theorem mem_of_mem_blocks {α : Type} {size : Nat} {block xs : List α} {x : α}
    (hblock : block ∈ blocks size xs) (hx : x ∈ block) : x ∈ xs := by
  rw [← flatten_blocks size xs]
  exact List.mem_flatten.2 ⟨block, hblock, hx⟩

/-- The links that lead upwards from a node with its id are edges between nodes. -/
theorem Network.Canonical.lt_of_mem_upward {W : Type} {net : Network W} (hnet : net.Canonical)
    {x : Node W × Nat} (hx : x ∈ net.nodes.toList.zipIdx) :
    x.2 < net.size ∧ ∀ link ∈ x.1.upward x.2, link.target < net.size := by
  refine ⟨by simpa [size] using (List.mem_zipIdx hx).2.1, fun link hlink => ?_⟩
  exact hnet.target_lt ⟨x.2, link.target, link.weight⟩
    (List.mem_flatMap.2 ⟨x, hx, List.mem_map_of_mem hlink⟩)

/-- Twice the weight within classes and the weight of all edges, added up from the blocks. -/
def blockTotals {W : Type} [Weight W] (net : Network W) (p : Partition) : Except Fault (W × W) :=
  ((blocks (net.size / 64) net.nodes.toList.zipIdx).mapM (blockSums p)).map fun sums =>
    sums.foldl (fun (internal, total) (i, t) => (internal + i, total + t)) (0, 0)

/-- The edges that lead upwards from a node with its id. -/
private def edgesFrom (x : Node K × Nat) : List (Edge K) :=
  (x.1.upward x.2).map fun link => ⟨x.2, link.target, link.weight⟩

omit [LinearOrder K] in
private theorem innerWeight_append (es es' : List (Edge K)) (f : Nat → Nat) :
    innerWeight (es ++ es') f = innerWeight es f + innerWeight es' f := by
  rw [innerWeight, edgeSum_append, mul_add]
  rfl

section Blocks

variable {p : Partition} {n : Nat}

private theorem foldlM_upward (hp : p.Covers n) {u : Nat} {links : List (Link K)}
    (hlinks : ∀ link ∈ links, link.target < n) (internal total : K) :
    links.foldlM (fun (x : K × K) (link : Link K) => do
        if p.labelAt u = (← p.label link.target) then
          return (x.1 + Weight.two * link.weight, x.2 + link.weight)
        else
          return (x.1, x.2 + link.weight)) (internal, total) =
      Except.ok (internal + innerWeight (links.map fun link => ⟨u, link.target, link.weight⟩) p.labelAt,
        total + edgeSum (links.map fun link => ⟨u, link.target, link.weight⟩) fun _ _ => 1) := by
  induction links generalizing internal total with
  | nil => simp [innerWeight]
  | cons link links ih =>
    have ih := ih fun link' h => hlinks link' (by simp [h])
    rw [List.foldlM_cons, hp.label_eq (hlinks link (by simp)), ok_bind, List.map_cons,
      innerWeight, edgeSum_cons, edgeSum_cons]
    split
    · rw [pure_eq_ok, ok_bind, ih, innerWeight, Weight.two_eq (K := K)]
      congr 2 <;> ring
    · rw [pure_eq_ok, ok_bind, ih, innerWeight]
      congr 2 <;> ring

private theorem blockSums_eq_ok (hp : p.Covers n) {block : List (Node K × Nat)}
    (hblock : ∀ x ∈ block, x.2 < n ∧ ∀ link ∈ x.1.upward x.2, link.target < n) :
    blockSums p block = .ok (innerWeight (block.flatMap edgesFrom) p.labelAt,
      edgeSum (block.flatMap edgesFrom) fun _ _ => 1) := by
  suffices h : ∀ sums : K × K, block.foldlM (fun (sums : K × K) (x : Node K × Nat) => do
      let own ← p.label x.2
      (x.1.upward x.2).foldlM (fun (x : K × K) (link : Link K) => do
        if own = (← p.label link.target) then
          return (x.1 + Weight.two * link.weight, x.2 + link.weight)
        else
          return (x.1, x.2 + link.weight)) sums) sums =
      Except.ok (sums.1 + innerWeight (block.flatMap edgesFrom) p.labelAt,
        sums.2 + edgeSum (block.flatMap edgesFrom) fun _ _ => 1) by
    have := h (0, 0)
    rw [zero_add, zero_add] at this
    exact this
  induction block with
  | nil => intro sums; simp [innerWeight]
  | cons x block ih =>
    intro sums
    obtain ⟨hx, hlinks⟩ := hblock x (by simp)
    rw [List.foldlM_cons, hp.label_eq hx, ok_bind, foldlM_upward hp hlinks, ok_bind,
      ih (fun y hy => hblock y (by simp [hy])), List.flatMap_cons, innerWeight_append,
      edgeSum_append, add_assoc, add_assoc]
    rfl

omit [LinearOrder K] in
private theorem foldl_add_pairs (bs : List (List (Node K × Nat))) (f : Nat → Nat) (sums : K × K) :
    (bs.map fun b => (innerWeight (b.flatMap edgesFrom) f,
        edgeSum (b.flatMap edgesFrom) fun _ _ => 1)).foldl
      (fun (x y : K × K) => (x.1 + y.1, x.2 + y.2)) sums =
      (sums.1 + innerWeight (bs.flatten.flatMap edgesFrom) f,
        sums.2 + edgeSum (bs.flatten.flatMap edgesFrom) fun _ _ => 1) := by
  induction bs generalizing sums with
  | nil => simp [innerWeight]
  | cons b bs ih =>
    rw [List.map_cons, List.foldl_cons, ih, List.flatten_cons, List.flatMap_append,
      innerWeight_append, edgeSum_append, add_assoc, add_assoc]

private theorem classDegrees_eq_ok {net : Network K} (hnet : net.Canonical)
    (hp : p.Covers net.size) (hcount : 8 * p.count < tableBytes) :
    ∃ ds, classDegrees net.degrees p = .ok ds ∧
      ds.toList = (List.range p.count).map (classEnds net.edges p.labelAt) := by
  have h := hp.foldlM_adjust (fun degree : K => (· + degree)) net.degrees.byNode.toList.zipIdx
    (fun x hx => by simpa using (List.mem_zipIdx hx).2.1) (Array.replicate p.count (0 : K)) (by simp)
  refine ⟨_, by rw [classDegrees, blankWeights_eq_ok _ hcount, ok_bind]; exact h.1, ?_⟩
  apply List.ext_getElem
  · simp [h.2]
  · intro c h₁ h₂
    have hc : c < p.count := by simpa using h₂
    rw [List.getElem_map, List.getElem_range, ← classEnds_eq_sum hnet.endsBelow]
    apply Option.some_injective
    rw [← List.getElem?_eq_getElem, Array.getElem?_toList, getElem?_foldl_modify, hnet.byNode_eq,
      zipIdx_map_range, Array.getElem?_replicate, if_pos hc, Option.map_some, List.filter_map,
      List.foldl_map, ← sum_map_filter_range, List.sum_eq_foldl, List.foldl_map]
    rfl

theorem modularityByBlocks_eq_blockTotals {W : Type} [Weight W] (net : Network W) (p : Partition) :
    modularityByBlocks net p = do
      let sums ← blockTotals net p
      return score sums.1 (Weight.two * sums.2) (← classDegrees net.degrees p).toList := by
  rw [modularityByBlocks, blockTotals, bind_map_eq]

theorem blockTotals_eq_ok {net : Network K} {p : Partition} (hnet : net.Canonical)
    (hp : p.Covers net.size) :
    ∃ sums, blockTotals net p = .ok sums ∧ sums.1 = innerWeight net.edges p.labelAt ∧
      Weight.two * sums.2 = volume net.edges := by
  have hedges : net.edges = net.nodes.toList.zipIdx.flatMap edgesFrom := rfl
  have hblocks : (blocks (net.size / 64) net.nodes.toList.zipIdx).mapM (blockSums p) =
      Except.ok ((blocks (net.size / 64) net.nodes.toList.zipIdx).map fun b =>
        (innerWeight (b.flatMap edgesFrom) p.labelAt,
          edgeSum (b.flatMap edgesFrom) fun _ _ => 1)) :=
    mapM_eq_ok fun b hb => blockSums_eq_ok hp fun x hx =>
      hnet.lt_of_mem_upward (mem_of_mem_blocks hb hx)
  have hsums := foldl_add_pairs (blocks (net.size / 64) net.nodes.toList.zipIdx) p.labelAt (0, 0)
  rw [flatten_blocks, ← hedges, zero_add, zero_add] at hsums
  refine ⟨(innerWeight net.edges p.labelAt, edgeSum net.edges fun _ _ => 1), ?_, rfl, ?_⟩
  · rw [blockTotals, hblocks]
    exact congrArg Except.ok hsums
  · rw [volume_eq, Weight.two_eq (K := K)]

theorem modularityByBlocks_eq_ok {net : Network K} {p : Partition} (hnet : net.Canonical)
    (hp : p.Covers net.size) (hcount : 8 * p.count < tableBytes) :
    modularityByBlocks net p = .ok (quality net.edges p.labelAt) := by
  obtain ⟨sums, hsums, hinternal, hm⟩ := blockTotals_eq_ok hnet hp
  obtain ⟨ds, hds, hlist⟩ := classDegrees_eq_ok hnet hp hcount
  rw [modularityByBlocks_eq_blockTotals, hsums, ok_bind, hds, ok_bind, pure_eq_ok, hinternal, hm,
    score_eq_quality hnet.endsBelow hp.labelAt_lt hlist]

/-- Labels that need not be dense, one for each node. -/
theorem modularity_ofLabels {net : Network K} {labels : Array Nat} (hnet : net.Canonical)
    (hsize : labels.size = net.size) :
    modularity net (.ofLabels labels) = .ok (quality net.edges (labels.getD · 0)) := by
  have hp := Partition.fits_ofLabels hsize
  rw [modularity_eq_ok hnet hp.toCovers (hnet.mul_lt_tableBytes hp.count_le)]
  congr 1
  exact quality_congr hnet.endsBelow fun u hu v hv =>
    Partition.labelAt_ofLabels_inj (hsize ▸ hu) (hsize ▸ hv)

end Blocks

/-! ## In any arithmetic -/

section AnyWeight

variable {W : Type} [Weight W] {net : Network W} {p : Partition}

private theorem exists_blockSums (hnet : net.Canonical) (hp : p.Covers net.size)
    {block : List (Node W × Nat)} (hblock : ∀ x ∈ block, x ∈ net.nodes.toList.zipIdx) :
    ∃ sums, blockSums p block = .ok sums := by
  refine exists_foldlM_of_forall (fun sums x hx => ?_) (0, 0)
  obtain ⟨hlt, htarget⟩ := hnet.lt_of_mem_upward (hblock x hx)
  obtain ⟨self, v⟩ := x
  dsimp only at hlt htarget ⊢
  rw [hp.label_eq hlt, ok_bind]
  refine exists_foldlM_of_forall (fun sums link hlink => ?_) sums
  rw [hp.label_eq (htarget link hlink), ok_bind]
  split <;> exact ⟨_, rfl⟩

private theorem exists_classDegrees (hp : p.Covers net.size) (hcount : 8 * p.count < tableBytes) :
    ∃ ds, classDegrees net.degrees p = .ok ds := by
  have h := hp.foldlM_adjust (fun degree : W => (· + degree)) net.degrees.byNode.toList.zipIdx
    (fun x hx => by simpa using (List.mem_zipIdx hx).2.1) (Array.replicate p.count (0 : W))
    (by simp)
  exact ⟨_, by rw [classDegrees, blankWeights_eq_ok _ hcount, ok_bind]; exact h.1⟩

theorem exists_modularityByBlocks (hnet : net.Canonical) (hp : p.Covers net.size)
    (hcount : 8 * p.count < tableBytes) : ∃ q, modularityByBlocks net p = .ok q := by
  obtain ⟨sums, hsums⟩ : ∃ sums,
      (blocks (net.size / 64) net.nodes.toList.zipIdx).mapM (blockSums p) = .ok sums :=
    exists_mapM fun b hb => exists_blockSums hnet hp fun x hx => mem_of_mem_blocks hb hx
  obtain ⟨ds, hds⟩ := exists_classDegrees hp hcount
  rw [modularityByBlocks, hsums, ok_bind]
  dsimp only
  rw [hds]
  exact ⟨_, rfl⟩

end AnyWeight

end Communities
