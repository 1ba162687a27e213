import Communities.Partition
import Communities.Proofs.Loop
import Mathlib.Data.List.Sort
import Mathlib.Order.Monotone.Defs

/-!
# Dense labels

What `Partition.ofLabels` does to labels: each becomes its rank, so the labels that are used are
exactly those below `count`, and two nodes have the same label after it if and only if they had
the same one before.

* `Partition.Covers`: a partition has a label below `count` for each of `n` nodes.
  `Partition.Fits`: and there are no more labels than nodes.
* `Ranking.rank_values`: the rank of the value at a position is that position.
* `Partition.Covers.classes_eq_ok`: the classes of such a partition;
  `Partition.Covers.exists_classes_iff`: when they can be listed, and
  `Partition.Covers.toList_classes` and `Partition.Covers.getElem?_classes`: what is listed then.
* `Partition.set_eq_ok_iff` and `Partition.Covers.set`: one node relabelled.
* `Partition.fits_ofLabels`, `Partition.labelAt_ofLabels_inj` and
  `Partition.mem_labels_ofLabels`: the dense labels; `Partition.ofLabels_of_dense`: they stay as
  they are; `Partition.ofLabels_map`: they depend on nothing but the order of the given ones.
-/

namespace Communities

/-! ## Ranks -/

namespace Ranking

theorem rank_values {r : Ranking} (hs : r.values.toList.Pairwise (· < ·)) {i : Nat}
    (hi : i < r.values.size) : r.rank r.values[i] = i := by
  have hnot : ¬i < r.rank r.values[i] := fun h =>
    absurd ((lt_rank_iff hs hi).1 h) (Nat.lt_irrefl _)
  rcases Nat.eq_zero_or_pos i with rfl | hpos
  · omega
  have hi' : i - 1 < r.values.size := by omega
  have hlt : r.values[i - 1] < r.values[i] := by
    have := List.pairwise_iff_getElem.1 hs (i - 1) i (by simpa using hi') (by simpa using hi)
      (by omega)
    simpa using this
  have := (lt_rank_iff hs hi').2 hlt
  omega

theorem find?_eq_some_iff {r : Ranking} (hs : r.values.toList.Pairwise (· < ·)) {x i : Nat} :
    r.find? x = some i ↔ r.values[i]? = some x := by
  unfold find?
  constructor
  · intro h
    split at h
    · next hx => cases h; exact hx
    · cases h
  · intro h
    obtain ⟨hi, rfl⟩ := Array.getElem?_eq_some_iff.1 h
    rw [rank_values hs hi, if_pos h]

variable {xs : List Nat} {x y : Nat}

theorem ofList_congr {ys : List Nat} (h : ∀ x, x ∈ xs ↔ x ∈ ys) : ofList xs = ofList ys := by
  have hvalues : (ofList xs).values.toList = (ofList ys).values.toList :=
    List.Pairwise.eq_of_mem_iff (values_pairwise xs) (values_pairwise ys) fun x => by
      rw [Array.mem_toList_iff, Array.mem_toList_iff, mem_values, mem_values, h]
  exact congrArg mk (Array.toList_inj.1 hvalues)

theorem exists_values (hx : x ∈ xs) :
    ∃ i, ∃ h : i < (ofList xs).values.size, (ofList xs).values[i] = x ∧ (ofList xs).rank x = i := by
  obtain ⟨i, hi, rfl⟩ := Array.mem_iff_getElem.1 (mem_values.2 hx)
  exact ⟨i, hi, rfl, rank_values (values_pairwise xs) hi⟩

theorem rank_lt_size (hx : x ∈ xs) : (ofList xs).rank x < (ofList xs).size := by
  obtain ⟨i, hi, -, h⟩ := exists_values hx
  rwa [h]

theorem rank_inj (hx : x ∈ xs) (hy : y ∈ xs) :
    (ofList xs).rank x = (ofList xs).rank y ↔ x = y := by
  refine ⟨fun h => ?_, fun h => by rw [h]⟩
  obtain ⟨i, hi, hxi, hri⟩ := exists_values hx
  obtain ⟨j, hj, hyj, hrj⟩ := exists_values hy
  have hij : i = j := by omega
  subst hij
  exact hxi.symm.trans hyj

theorem exists_rank_eq {i : Nat} (hi : i < (ofList xs).size) : ∃ x ∈ xs, (ofList xs).rank x = i :=
  ⟨(ofList xs).values[i], mem_values.1 (Array.getElem_mem hi), rank_values (values_pairwise xs) hi⟩

theorem size_ofList_le (xs : List Nat) : (ofList xs).size ≤ xs.length := by
  have hnodup : (ofList xs).values.toList.Nodup := (values_pairwise xs).imp fun h => Nat.ne_of_lt h
  have hsub : (ofList xs).values.toList ⊆ xs := fun x hx => mem_values.1 (Array.mem_toList_iff.1 hx)
  simpa [size] using (List.subperm_of_subset hnodup hsub).length_le

/-- Numbers without a gap are their own ranks. -/
theorem rank_of_dense {c : Nat} (h : ∀ x, x ∈ xs ↔ x < c) :
    (ofList xs).size = c ∧ ∀ x < c, (ofList xs).rank x = x := by
  have hvalues : (ofList xs).values.toList = List.range c :=
    List.Pairwise.eq_of_mem_iff (values_pairwise xs) List.pairwise_lt_range fun x => by
      rw [Array.mem_toList_iff, mem_values, h, List.mem_range]
  have hsize : (ofList xs).values.size = c := by
    rw [← Array.length_toList, hvalues, List.length_range]
  refine ⟨hsize, fun x hx => ?_⟩
  have hx' : x < (ofList xs).values.size := hsize.symm ▸ hx
  have hvalue : (ofList xs).values[x] = x := by
    rw [← Array.getElem_toList]
    simp [hvalues]
  have hrank := rank_values (values_pairwise xs) hx'
  rwa [hvalue] at hrank

/-- Numbers that are mapped in order have their ranks mapped along. -/
theorem values_map {f : Nat → Nat} (hf : StrictMonoOn f {x | x ∈ xs}) :
    (ofList (xs.map f)).values.toList = (ofList xs).values.toList.map f := by
  refine List.Pairwise.eq_of_mem_iff (values_pairwise _) ?_ fun x => ?_
  · refine List.pairwise_map.2 ((values_pairwise xs).imp_of_mem fun hx hy hlt => hf ?_ ?_ hlt)
    · exact mem_values.1 (Array.mem_toList_iff.1 hx)
    · exact mem_values.1 (Array.mem_toList_iff.1 hy)
  · simp [Array.mem_toList_iff, mem_values]

theorem rank_map {f : Nat → Nat} (hf : StrictMonoOn f {x | x ∈ xs}) (hx : x ∈ xs) :
    (ofList (xs.map f)).rank (f x) = (ofList xs).rank x := by
  rw [rank_eq_countP (values_pairwise _), rank_eq_countP (values_pairwise _), values_map hf,
    List.countP_map]
  refine List.countP_congr fun y hy => ?_
  simpa using hf.lt_iff_lt (mem_values.1 (Array.mem_toList_iff.1 hy)) hx

end Ranking

/-! ## Partitions -/

namespace Partition

/-- The label of a node, zero if it has none. -/
def labelAt (p : Partition) (v : Nat) : Nat := p.labels.getD v 0

/-- Each of the nodes below `n`, and no other, has a label below `count`. -/
structure Covers (p : Partition) (n : Nat) : Prop where
  /-- There is a label for each node. -/
  size_eq : p.labels.size = n
  /-- The labels are below `count`. -/
  labelAt_lt : ∀ v < n, p.labelAt v < p.count

/-- There are also no more labels than nodes. -/
structure Fits (p : Partition) (n : Nat) : Prop extends p.Covers n where
  /-- No label is above the nodes. -/
  count_le : p.count ≤ n

theorem label_eq_ok {p : Partition} {v : Nat} (h : v < p.labels.size) :
    p.label v = .ok (p.labelAt v) := by
  rw [label, fetch_of_lt h, labelAt, Array.getD, dif_pos h]
  rfl

theorem Covers.label_eq {p : Partition} {n v : Nat} (h : p.Covers n) (hv : v < n) :
    p.label v = .ok (p.labelAt v) :=
  label_eq_ok (h.size_eq ▸ hv)

/-- A loop over numbered entries that updates the entry of each number's label. -/
theorem Covers.foldlM_adjust {α β : Type} {p : Partition} {n : Nat} (h : p.Covers n)
    (op : α → β → β) (xs : List (α × Nat)) (hxs : ∀ x ∈ xs, x.2 < n) (table : Array β)
    (htable : table.size = p.count) :
    xs.foldlM (fun table x => do adjust table (← p.label x.2) (op x.1)) table =
        .ok (xs.foldl (fun table x => table.modify (p.labelAt x.2) (op x.1)) table) ∧
      (xs.foldl (fun table x => table.modify (p.labelAt x.2) (op x.1)) table).size = p.count := by
  refine foldlM_eq_ok (fun table : Array β => table.size = p.count) htable fun table htable x hx => ?_
  have hlabel := h.labelAt_lt _ (hxs x hx)
  rw [h.label_eq (hxs x hx), ok_bind, adjust_of_lt _ (htable ▸ hlabel), Array.size_modify]
  exact ⟨rfl, htable⟩

theorem Covers.toList_labels {p : Partition} {n : Nat} (h : p.Covers n) :
    p.labels.toList = (List.range n).map p.labelAt := by
  rw [toList_eq_map_getD p.labels 0, h.size_eq]
  rfl

/-- The class of a label is the nodes that have it. -/
theorem Covers.classes_eq_ok {p : Partition} {n : Nat} (h : p.Covers n)
    (htable : 24 * p.count < tableBytes) :
    ∃ classes, p.classes = .ok classes ∧ classes.size = p.count ∧
      ∀ c < p.count, classes[c]? = some ((List.range n).filter (p.labelAt · = c)) := by
  have hblank : blankLists (α := Nat) p.count = .ok (Array.replicate p.count []) :=
    blankTable_eq_ok_iff.2 ⟨htable, rfl⟩
  have hnodes : p.labels.toList.zipIdx = (List.range n).map fun v => (p.labelAt v, v) := by
    rw [h.toList_labels, zipIdx_map_range]
  have hlt : ∀ x ∈ p.labels.toList.zipIdx, x.1 < (Array.replicate p.count ([] : List Nat)).size := by
    rw [hnodes, List.forall_mem_map]
    intro v hv
    simpa using h.labelAt_lt v (List.mem_range.1 hv)
  have hfold := foldrM_adjust Prod.fst (fun (x : Nat × Nat) => (x.2 :: ·)) hlt
  refine ⟨_, by rw [classes, hblank, ok_bind]; exact hfold, ?_, fun c hc => ?_⟩
  · rw [size_foldr_modify, Array.size_replicate]
  · rw [getElem?_foldr_modify, hnodes, List.filter_map]
    simp [List.foldr_map, Function.comp_def, hc]

/-- Classes that are listed fit a table. -/
theorem table_lt_of_classes {p : Partition} {classes : Array (List Nat)}
    (h : p.classes = .ok classes) : 24 * p.count < tableBytes := by
  obtain ⟨blank, hblank, -⟩ := bind_eq_ok_iff.1 h
  exact (blankTable_eq_ok_iff.1 hblank).1

theorem Covers.exists_classes_iff {p : Partition} {n : Nat} (h : p.Covers n) :
    (∃ classes, p.classes = .ok classes) ↔ 24 * p.count < tableBytes := by
  refine ⟨fun ⟨classes, hclasses⟩ => table_lt_of_classes hclasses, fun htable => ?_⟩
  obtain ⟨classes, hclasses, -⟩ := h.classes_eq_ok htable
  exact ⟨classes, hclasses⟩

theorem Covers.toList_classes {p : Partition} {n : Nat} (h : p.Covers n)
    {classes : Array (List Nat)} (hclasses : p.classes = .ok classes) :
    classes.toList = (List.range p.count).map fun c => (List.range n).filter (p.labelAt · = c) := by
  obtain ⟨classes', hclasses', hsize, hclass⟩ := h.classes_eq_ok (table_lt_of_classes hclasses)
  obtain rfl := Except.ok.inj (hclasses.symm.trans hclasses')
  refine List.ext_getElem? fun c => ?_
  rw [Array.getElem?_toList]
  by_cases hc : c < p.count
  · simp [hclass c hc, hc]
  · rw [Array.getElem?_eq_none (by omega), List.getElem?_eq_none (by simpa using hc)]

theorem Covers.getElem?_classes {p : Partition} {n c : Nat} (h : p.Covers n)
    {classes : Array (List Nat)} (hclasses : p.classes = .ok classes) {nodes : List Nat} :
    classes[c]? = some nodes ↔
      c < p.count ∧ nodes = (List.range n).filter (p.labelAt · = c) := by
  rw [← Array.getElem?_toList, h.toList_classes hclasses, List.getElem?_map]
  by_cases hc : c < p.count
  · simp [hc, eq_comm]
  · simp [hc]

theorem labelAt_singletons {n v : Nat} (hv : v < n) : (singletons n).labelAt v = v := by
  simp [singletons, labelAt, hv]

theorem fits_singletons (n : Nat) : (singletons n).Fits n :=
  ⟨⟨size_singletons n, fun _ hv => (labelAt_singletons hv).symm ▸ hv⟩, Nat.le_refl n⟩

/-! ### One node relabelled -/

section Set

variable {p moved : Partition} {n v c : Nat}

theorem set_eq_ok_iff : p.set v c = .ok moved ↔ v < p.labels.size ∧
    (c < p.count ∨ c + 1 < countBound) ∧
    moved = ⟨p.labels.setIfInBounds v c, max p.count (c + 1)⟩ := by
  unfold set
  by_cases hv : v < p.labels.size
  · rw [adjust_of_lt _ hv, ok_bind, modify_const]
    split
    · next hc =>
      rw [Nat.max_eq_left (Nat.succ_le_of_lt hc)]
      simp [hv, hc, eq_comm]
    split
    · next hc hbound =>
      simp [hv, hbound, Nat.max_eq_right (Nat.le_succ_of_le (Nat.le_of_not_lt hc)), eq_comm]
    · next hc hbound => simp [hv, hc, hbound]
  · simp [adjust, hv]

theorem labelAt_set (h : p.set v c = .ok moved) :
    moved.labelAt = Function.update p.labelAt v c := by
  obtain ⟨hv, -, rfl⟩ := set_eq_ok_iff.1 h
  exact getD_setIfInBounds hv c

theorem Covers.set (hp : p.Covers n) (h : p.set v c = .ok moved) : moved.Covers n := by
  have hlabel := labelAt_set h
  obtain ⟨-, -, rfl⟩ := set_eq_ok_iff.1 h
  refine ⟨by simpa using hp.size_eq, fun u hu => ?_⟩
  rw [hlabel, Function.update_apply]
  split
  · exact Nat.lt_of_lt_of_le (Nat.lt_succ_self c) (Nat.le_max_right _ _)
  · exact Nat.lt_of_lt_of_le (hp.labelAt_lt u hu) (Nat.le_max_left _ _)

end Set

/-! ### Dense labels -/

variable {labels : Array Nat}

private theorem getD_mem {v : Nat} (hv : v < labels.size) : labels.getD v 0 ∈ labels.toList := by
  simp [Array.getD, hv]

theorem labelAt_ofLabels {v : Nat} (hv : v < labels.size) :
    (ofLabels labels).labelAt v = (Ranking.ofList labels.toList).rank (labels.getD v 0) := by
  simp [ofLabels, labelAt, Array.getD, hv]

theorem fits_ofLabels {n : Nat} (h : labels.size = n) : (ofLabels labels).Fits n := by
  subst h
  refine ⟨⟨by simp [ofLabels], fun v hv => ?_⟩, ?_⟩
  · rw [labelAt_ofLabels hv]
    exact Ranking.rank_lt_size (getD_mem hv)
  · simpa [ofLabels] using Ranking.size_ofList_le labels.toList

theorem labelAt_ofLabels_inj {u v : Nat} (hu : u < labels.size) (hv : v < labels.size) :
    (ofLabels labels).labelAt u = (ofLabels labels).labelAt v ↔
      labels.getD u 0 = labels.getD v 0 := by
  rw [labelAt_ofLabels hu, labelAt_ofLabels hv, Ranking.rank_inj (getD_mem hu) (getD_mem hv)]

/-- Every label below `count` is used. -/
theorem exists_labelAt_ofLabels {c : Nat} (hc : c < (ofLabels labels).count) :
    ∃ v < labels.size, (ofLabels labels).labelAt v = c := by
  obtain ⟨x, hx, hr⟩ := Ranking.exists_rank_eq hc
  obtain ⟨v, hv, rfl⟩ := List.getElem_of_mem hx
  have hv' : v < labels.size := by simpa using hv
  refine ⟨v, hv', ?_⟩
  rw [labelAt_ofLabels hv']
  simpa [Array.getD, hv'] using hr

theorem mem_labels_ofLabels {c : Nat} :
    c ∈ (ofLabels labels).labels ↔ c < (ofLabels labels).count := by
  rw [Array.mem_iff_getElem]
  constructor
  · rintro ⟨v, hv, rfl⟩
    have hlt := (fits_ofLabels (Eq.refl labels.size)).labelAt_lt v (by simpa [ofLabels] using hv)
    rwa [labelAt, Array.getD, dif_pos hv] at hlt
  · intro hc
    obtain ⟨v, hv, rfl⟩ := exists_labelAt_ofLabels hc
    have hv' : v < (ofLabels labels).labels.size := by simpa [ofLabels] using hv
    refine ⟨v, hv', ?_⟩
    rw [labelAt, Array.getD, dif_pos hv']
    rfl

/-- Dense labels stay as they are. -/
theorem ofLabels_of_dense {c : Nat} (h : ∀ x, x ∈ labels ↔ x < c) :
    ofLabels labels = ⟨labels, c⟩ := by
  have hmem : ∀ x, x ∈ labels.toList ↔ x < c := fun x => Array.mem_toList_iff.trans (h x)
  obtain ⟨hsize, hrank⟩ := Ranking.rank_of_dense hmem
  have hlabels : labels.map (Ranking.ofList labels.toList).rank = labels := by
    conv_rhs => rw [← Array.map_id labels]
    exact Array.map_congr_left fun x hx => hrank x ((h x).1 hx)
  rw [ofLabels, hsize, hlabels]

/-- Only the order of the labels matters. -/
theorem ofLabels_map {f : Nat → Nat} (hf : StrictMonoOn f {x | x ∈ labels}) :
    ofLabels (labels.map f) = ofLabels labels := by
  have hf' : StrictMonoOn f {x | x ∈ labels.toList} := by simpa using hf
  have hsize : (Ranking.ofList (labels.map f).toList).size =
      (Ranking.ofList labels.toList).size := by
    have hlength := congrArg List.length (Ranking.values_map hf')
    simpa [Ranking.size] using hlength
  rw [ofLabels, ofLabels, hsize, Array.map_map]
  congr 1
  refine Array.map_congr_left fun x hx => ?_
  rw [Function.comp, Array.toList_map, Ranking.rank_map hf' (Array.mem_toList_iff.2 hx)]

/-- Labels that ascend with the nodes put each of them alone. -/
theorem ofLabels_of_ascending (h : labels.toList.Pairwise (· < ·)) :
    ofLabels labels = singletons labels.size := by
  have hmap : labels = (Array.range labels.size).map (labels.getD · 0) := by
    refine Array.ext (by simp) fun v hv _ => ?_
    simp [hv]
  have hmono : StrictMonoOn (labels.getD · 0) {x | x ∈ Array.range labels.size} := by
    intro u hu v hv huv
    have hu : u < labels.size := Array.mem_range.1 hu
    have hv : v < labels.size := Array.mem_range.1 hv
    have hlt := List.pairwise_iff_getElem.1 h u v (by simpa using hu) (by simpa using hv) huv
    simpa [hu, hv] using hlt
  rw [hmap, ofLabels_map hmono, Array.size_map, Array.size_range]
  exact ofLabels_of_dense fun x => Array.mem_range

theorem ofLabels_ofLabels (labels : Array Nat) :
    ofLabels (ofLabels labels).labels = ofLabels labels :=
  ofLabels_of_dense fun _ => mem_labels_ofLabels

end Partition

end Communities
