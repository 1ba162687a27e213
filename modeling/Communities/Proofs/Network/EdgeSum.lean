import Communities.Network.Parallel
import Communities.Proofs.Exact
import Mathlib.Algebra.BigOperators.Group.Finset.Basic
import Mathlib.Algebra.Order.BigOperators.Group.List

/-!
# Sums over edges

In exact arithmetic all that the library computes from the edges of a network is linear in their
weights. `edgeSum` weighs each edge with a function of its two ends, `endSum` with a function of
one end, added up over both.

* `edgeSum_mergeParallel`: merging parallel edges changes no sum of a symmetric function.
* `edgeSum_mapEnds`: renaming the ends renames them in the function.
* `endSum_le`, `endSum_nonneg`: with weights that are not negative, sums are monotone.
-/

namespace Communities

/-- The edge with its ends renamed. -/
def Edge.mapEnds {W : Type} (f : Nat → Nat) (e : Edge W) : Edge W :=
  ⟨f e.source, f e.target, e.weight⟩

variable {K : Type} [Field K]

/-- The weights of the edges, each times what `φ` says of its ends. -/
def edgeSum (es : List (Edge K)) (φ : Nat → Nat → K) : K :=
  (es.map fun e => e.weight * φ e.source e.target).sum

/-- The weights of the edges, each times what `g` says of either end. A loop has its end twice. -/
def endSum (es : List (Edge K)) (g : Nat → K) : K := edgeSum es fun u v => g u + g v

variable {es : List (Edge K)} {φ ψ : Nat → Nat → K} {g h : Nat → K}

@[simp] theorem edgeSum_nil : edgeSum ([] : List (Edge K)) φ = 0 := rfl

@[simp] theorem edgeSum_cons (e : Edge K) :
    edgeSum (e :: es) φ = e.weight * φ e.source e.target + edgeSum es φ := rfl

theorem edgeSum_append (es es' : List (Edge K)) :
    edgeSum (es ++ es') φ = edgeSum es φ + edgeSum es' φ := by
  simp [edgeSum]

theorem edgeSum_congr (h : ∀ e ∈ es, φ e.source e.target = ψ e.source e.target) :
    edgeSum es φ = edgeSum es ψ := by
  rw [edgeSum, List.map_congr_left fun e he => by rw [h e he], edgeSum]

theorem edgeSum_add : edgeSum es (fun u v => φ u v + ψ u v) = edgeSum es φ + edgeSum es ψ := by
  simp only [edgeSum, mul_add, List.sum_map_add]

theorem edgeSum_mul_left (c : K) : edgeSum es (fun u v => c * φ u v) = c * edgeSum es φ := by
  simp only [edgeSum, mul_left_comm _ c, List.sum_map_mul_left]

theorem edgeSum_sub : edgeSum es (fun u v => φ u v - ψ u v) = edgeSum es φ - edgeSum es ψ := by
  have h : edgeSum es (fun u v => φ u v + -1 * ψ u v) =
      edgeSum es φ + edgeSum es fun u v => -1 * ψ u v := edgeSum_add
  rw [edgeSum_mul_left] at h
  rw [sub_eq_add_neg, ← neg_one_mul, ← h]
  exact edgeSum_congr fun e _ => by ring

theorem edgeSum_finset_sum {ι : Type} (s : Finset ι) (φ : ι → Nat → Nat → K) :
    edgeSum es (fun u v => ∑ i ∈ s, φ i u v) = ∑ i ∈ s, edgeSum es (φ i) := by
  induction es with
  | nil => simp
  | cons e es ih => simp only [edgeSum_cons, ih, Finset.mul_sum, Finset.sum_add_distrib]

theorem edgeSum_perm {es es' : List (Edge K)} (h : es.Perm es') : edgeSum es φ = edgeSum es' φ :=
  (h.map _).sum_eq

theorem edgeSum_mapEnds (f : Nat → Nat) :
    edgeSum (es.map (Edge.mapEnds f)) φ = edgeSum es fun u v => φ (f u) (f v) := by
  simp [edgeSum, Edge.mapEnds, Function.comp_def]

theorem endSum_congr (h' : ∀ e ∈ es, g e.source = h e.source ∧ g e.target = h e.target) :
    endSum es g = endSum es h :=
  edgeSum_congr fun e he => by rw [(h' e he).1, (h' e he).2]

theorem endSum_add : endSum es (fun v => g v + h v) = endSum es g + endSum es h := by
  rw [endSum, endSum, endSum, ← edgeSum_add]
  exact edgeSum_congr fun e _ => by ring

theorem endSum_mul_left (c : K) : endSum es (fun v => c * g v) = c * endSum es g := by
  rw [endSum, endSum, ← edgeSum_mul_left]
  exact edgeSum_congr fun e _ => by ring

theorem endSum_finset_sum {ι : Type} (s : Finset ι) (g : ι → Nat → K) :
    endSum es (fun v => ∑ i ∈ s, g i v) = ∑ i ∈ s, endSum es (g i) := by
  simp only [endSum, ← edgeSum_finset_sum, Finset.sum_add_distrib]

/-! ## Merging -/

theorem edgeSum_raise (hφ : ∀ u v, φ u v = φ v u) : edgeSum (es.map Edge.raise) φ = edgeSum es φ := by
  induction es with
  | nil => rfl
  | cons e es ih =>
    rw [List.map_cons, edgeSum_cons, edgeSum_cons, ih, Edge.raise]
    split
    · rfl
    · rw [hφ]

section Merge

variable [LinearOrder K]

private theorem edgeSum_absorb (merged : List (Edge K)) (e : Edge K) :
    edgeSum (Edge.absorb merged e) φ = edgeSum merged φ + e.weight * φ e.source e.target := by
  cases merged with
  | nil => simp [Edge.absorb]
  | cons last rest =>
    rw [Edge.absorb]
    split
    · next h => rw [edgeSum_cons, edgeSum_cons, ← h.1, ← h.2]; ring
    · simp only [edgeSum_cons, zero_add]; ring

private theorem edgeSum_foldl_absorb (merged : List (Edge K)) :
    edgeSum (es.foldl Edge.absorb merged) φ = edgeSum merged φ + edgeSum es φ := by
  induction es generalizing merged with
  | nil => simp
  | cons e es ih => rw [List.foldl_cons, ih, edgeSum_absorb, edgeSum_cons, add_assoc]

theorem edgeSum_mergeParallel (hφ : ∀ u v, φ u v = φ v u) :
    edgeSum (mergeParallel es) φ = edgeSum es φ := by
  rw [mergeParallel, edgeSum_perm (List.reverse_perm _), edgeSum_foldl_absorb, edgeSum_nil,
    zero_add, edgeSum_perm (List.mergeSort_perm _ _), edgeSum_raise hφ]

end Merge

/-! ## Weights that are not negative -/

section Order

variable [LinearOrder K] [IsStrictOrderedRing K]

theorem edgeSum_le (hw : ∀ e ∈ es, 0 ≤ e.weight)
    (hφ : ∀ e ∈ es, φ e.source e.target ≤ ψ e.source e.target) : edgeSum es φ ≤ edgeSum es ψ :=
  List.sum_le_sum fun e he => mul_le_mul_of_nonneg_left (hφ e he) (hw e he)

theorem edgeSum_nonneg (hw : ∀ e ∈ es, 0 ≤ e.weight) (hφ : ∀ u v, 0 ≤ φ u v) :
    0 ≤ edgeSum es φ :=
  List.sum_nonneg fun x hx => by
    obtain ⟨e, he, rfl⟩ := List.mem_map.1 hx
    exact mul_nonneg (hw e he) (hφ _ _)

/-- One edge alone weighs no more than all. -/
theorem le_edgeSum (hw : ∀ e ∈ es, 0 ≤ e.weight) (hφ : ∀ u v, 0 ≤ φ u v) {e : Edge K}
    (he : e ∈ es) : e.weight * φ e.source e.target ≤ edgeSum es φ :=
  List.single_le_sum (fun x hx => by
    obtain ⟨e', he', rfl⟩ := List.mem_map.1 hx
    exact mul_nonneg (hw e' he') (hφ _ _)) _ (List.mem_map_of_mem he)

theorem endSum_le (hw : ∀ e ∈ es, 0 ≤ e.weight) (hg : ∀ v, g v ≤ h v) : endSum es g ≤ endSum es h :=
  edgeSum_le hw fun _ _ => add_le_add (hg _) (hg _)

/-- Merging adds weights up, so none becomes negative. -/
theorem nonneg_mergeParallel (hw : ∀ e ∈ es, 0 ≤ e.weight) :
    ∀ e ∈ mergeParallel es, 0 ≤ e.weight := by
  have habsorb : ∀ (merged : List (Edge K)) (e : Edge K), (∀ m ∈ merged, 0 ≤ m.weight) →
      0 ≤ e.weight → ∀ m ∈ Edge.absorb merged e, 0 ≤ m.weight := by
    intro merged e hmerged he
    cases merged with
    | nil => simpa [Edge.absorb] using he
    | cons last rest =>
      obtain ⟨hlast, hrest⟩ := List.forall_mem_cons.1 hmerged
      rw [Edge.absorb]
      split
      · exact List.forall_mem_cons.2 ⟨add_nonneg hlast he, hrest⟩
      · exact List.forall_mem_cons.2 ⟨by simpa using he, hmerged⟩
  have hfold : ∀ (sorted merged : List (Edge K)), (∀ m ∈ merged, 0 ≤ m.weight) →
      (∀ e ∈ sorted, 0 ≤ e.weight) → ∀ m ∈ sorted.foldl Edge.absorb merged, 0 ≤ m.weight := by
    intro sorted
    induction sorted with
    | nil => exact fun merged hmerged _ => hmerged
    | cons e sorted ih =>
      intro merged hmerged hsorted
      obtain ⟨he, hsorted⟩ := List.forall_mem_cons.1 hsorted
      exact ih _ (habsorb merged e hmerged he) hsorted
  intro e he
  refine hfold _ [] (by simp) (fun e' he' => ?_) e (List.mem_reverse.1 he)
  obtain ⟨e'', he'', rfl⟩ := List.mem_map.1 ((List.mergeSort_perm _ _).mem_iff.1 he')
  have hweight : e''.raise.weight = e''.weight := by unfold Edge.raise; split <;> rfl
  rw [hweight]
  exact hw e'' he''

theorem endSum_nonneg (hw : ∀ e ∈ es, 0 ≤ e.weight) (hg : ∀ v, 0 ≤ g v) : 0 ≤ endSum es g :=
  edgeSum_nonneg hw fun _ _ => add_nonneg (hg _) (hg _)

end Order

end Communities
