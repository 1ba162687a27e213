import Communities.Proofs.Network.EdgeSum

/-!
# The quality of a partition

`quality es f` is the modularity of the partition that puts node `v` into class `f v`, said of the
list of edges alone and without reference to the way in which the library adds it up. It depends
on which nodes share a class and on nothing else of the labels.

* `quality_congr`: labels that tell the same nodes apart have the same quality.
* `quality_of_const`: one class of all nodes has none.
* `quality_of_edgeSum`: drawing classes together into nodes changes no quality.
* `quality_update`: what it changes to move one node, in closed form.
* `neg_half_le_quality` and `quality_lt_one`: with weights that are not negative, and not all zero,
  it lies between `-1/2` and `1`.
-/

namespace Communities

/-- The ends of the edges are nodes below `n`. -/
def EndsBelow {W : Type} (n : Nat) (es : List (Edge W)) : Prop :=
  ∀ e ∈ es, e.source < n ∧ e.target < n

section Definitions

variable {K : Type} [Field K]

/-- Twice the weight of the edges. -/
def volume (es : List (Edge K)) : K := endSum es fun _ => 1

/-- Twice the weight of the edges within classes. -/
def innerWeight (es : List (Edge K)) (f : Nat → Nat) : K :=
  2 * edgeSum es fun u v => if f u = f v then 1 else 0

/-- The weight of the edge ends in class `c`. -/
def classEnds (es : List (Edge K)) (f : Nat → Nat) (c : Nat) : K :=
  endSum es fun v => if f v = c then 1 else 0

/-- The sum of the squares of the weights of edge ends, over all classes. -/
def endSquares (es : List (Edge K)) (f : Nat → Nat) : K := endSum es fun v => classEnds es f (f v)

/-- The weight of the edge ends at `x`. -/
def nodeEnds (es : List (Edge K)) (x : Nat) : K := endSum es fun v => if v = x then 1 else 0

/-- The weight of the edges between `x` and the members of class `c` other than `x`. -/
def linkWeight (es : List (Edge K)) (f : Nat → Nat) (x c : Nat) : K :=
  edgeSum es fun u v =>
    if u = v then 0 else if u = x then if f v = c then 1 else 0
    else if v = x then if f u = c then 1 else 0 else 0

/-- The modularity of the partition into the classes `f`. -/
def quality [DecidableEq K] (es : List (Edge K)) (f : Nat → Nat) : K :=
  if volume es = 0 then 0 else (innerWeight es f - endSquares es f / volume es) / volume es

end Definitions

section Laws

variable {K : Type} [Field K] {es es' : List (Edge K)} {f g : Nat → Nat} {n : Nat}

theorem volume_eq (es : List (Edge K)) : volume es = 2 * edgeSum es fun _ _ => 1 := by
  rw [volume, endSum, ← edgeSum_mul_left]
  exact edgeSum_congr fun e _ => by norm_num

/-- Each end is in one class below `k`. -/
theorem sum_classEnds (hn : EndsBelow n es) {k : Nat} (hf : ∀ v < n, f v < k) (h : Nat → K) :
    ∑ c ∈ Finset.range k, h c * classEnds es f c = endSum es fun v => h (f v) := by
  simp only [classEnds, ← endSum_mul_left, ← endSum_finset_sum]
  refine endSum_congr fun e he => ⟨?_, ?_⟩
  · simp [Finset.sum_ite_eq, hf _ (hn e he).1]
  · simp [Finset.sum_ite_eq, hf _ (hn e he).2]

theorem endSquares_eq_sum (hn : EndsBelow n es) {k : Nat} (hf : ∀ v < n, f v < k) :
    ∑ c ∈ Finset.range k, classEnds es f c * classEnds es f c = endSquares es f :=
  sum_classEnds hn hf _

/-- The ends in a class are the ends at its nodes. -/
theorem classEnds_eq_sum (hn : EndsBelow n es) (c : Nat) :
    ∑ v ∈ Finset.range n with f v = c, nodeEnds es v = classEnds es f c := by
  simp only [nodeEnds, ← endSum_finset_sum, classEnds]
  refine endSum_congr fun e he => ⟨?_, ?_⟩
  · simp [Finset.sum_ite_eq, (hn e he).1]
  · simp [Finset.sum_ite_eq, (hn e he).2]

theorem volume_eq_sum (hn : EndsBelow n es) : ∑ v ∈ Finset.range n, nodeEnds es v = volume es := by
  simp only [nodeEnds, ← endSum_finset_sum, volume]
  refine endSum_congr fun e he => ⟨?_, ?_⟩
  · simp [Finset.sum_ite_eq, (hn e he).1]
  · simp [Finset.sum_ite_eq, (hn e he).2]

section Renaming

variable [DecidableEq K]

theorem quality_congr (hn : EndsBelow n es) (h : ∀ u < n, ∀ v < n, f u = f v ↔ g u = g v) :
    quality es f = quality es g := by
  have hinner : innerWeight es f = innerWeight es g := by
    rw [innerWeight, innerWeight]
    congr 1
    exact edgeSum_congr fun e he => by simp only [h _ (hn e he).1 _ (hn e he).2]
  have hclass : ∀ v < n, classEnds es f (f v) = classEnds es g (g v) := fun v hv =>
    endSum_congr fun e he => by simp only [h _ (hn e he).1 v hv, h _ (hn e he).2 v hv, and_self]
  have hsquares : endSquares es f = endSquares es g :=
    endSum_congr fun e he => ⟨hclass _ (hn e he).1, hclass _ (hn e he).2⟩
  rw [quality, quality, hinner, hsquares]

theorem quality_of_const (hn : EndsBelow n es) (h : ∀ u < n, ∀ v < n, f u = f v) :
    quality es f = 0 := by
  rw [quality_congr (g := fun _ => 0) hn fun u hu v hv => by simp [h u hu v hv], quality]
  split
  · rfl
  · next hm =>
    have hinner : innerWeight es (fun _ => 0) = volume es := by
      simp [innerWeight, volume_eq]
    have hsquares : endSquares es (fun _ => 0) = volume es * volume es := by
      rw [endSquares, volume, ← endSum_mul_left]
      simp [classEnds]
    rw [hinner, hsquares, mul_div_cancel_right₀ _ hm, sub_self, zero_div]

/-- Edges that have the same symmetric sums as `es` with its ends renamed. -/
theorem quality_of_edgeSum {p : Nat → Nat}
    (h : ∀ φ : Nat → Nat → K, (∀ u v, φ u v = φ v u) →
      edgeSum es' φ = edgeSum es fun u v => φ (p u) (p v)) :
    quality es' f = quality es fun v => f (p v) := by
  have hends : ∀ k : Nat → K, endSum es' k = endSum es fun v => k (p v) := fun k =>
    h _ fun u v => add_comm _ _
  have hvolume : volume es' = volume es := hends _
  have hinner : innerWeight es' f = innerWeight es fun v => f (p v) := by
    rw [innerWeight, innerWeight, h _ fun u v => by simp only [eq_comm]]
  have hclass : ∀ c, classEnds es' f c = classEnds es (fun v => f (p v)) c := fun c => hends _
  have hsquares : endSquares es' f = endSquares es fun v => f (p v) := by
    rw [endSquares, hends, endSquares]
    simp only [hclass]
  rw [quality, quality, hvolume, hinner, hsquares]

end Renaming

/-! ## Moving one node -/

variable {x c : Nat}

private theorem innerWeight_update :
    innerWeight es (Function.update f x c) =
      innerWeight es f + 2 * (linkWeight es f x c - linkWeight es f x (f x)) := by
  rw [innerWeight, innerWeight, linkWeight, linkWeight, ← edgeSum_sub, ← mul_add, ← edgeSum_add]
  congr 1
  refine edgeSum_congr fun e _ => ?_
  by_cases huv : e.source = e.target
  · simp [huv]
  by_cases hu : e.source = x
  · have hv : e.target ≠ x := fun hv => huv (hu.trans hv.symm)
    simp [hu, hv, Ne.symm hv, eq_comm]
  · by_cases hv : e.target = x
    · simp [hu, hv]
    · simp [huv, hu, hv]

theorem classEnds_update (hc : f x ≠ c) (c' : Nat) :
    classEnds es (Function.update f x c) c' = classEnds es f c' +
      nodeEnds es x * ((if c' = c then 1 else 0) - if c' = f x then 1 else 0) := by
  rw [mul_comm, classEnds, classEnds, nodeEnds, ← endSum_mul_left, ← endSum_add]
  have key : ∀ v, (if Function.update f x c v = c' then (1 : K) else 0) =
      (if f v = c' then 1 else 0) +
        ((if c' = c then 1 else 0) - if c' = f x then 1 else 0) * if v = x then 1 else 0 := by
    intro v
    by_cases hv : v = x
    · subst hv; simp [eq_comm]
    · simp [hv]
  exact endSum_congr fun e _ => ⟨key _, key _⟩

private theorem endSum_update (h : Nat → K) :
    endSum es (fun v => h (Function.update f x c v)) =
      endSum es (fun v => h (f v)) + nodeEnds es x * (h c - h (f x)) := by
  rw [mul_comm, nodeEnds, ← endSum_mul_left, ← endSum_add]
  have key : ∀ v, h (Function.update f x c v) =
      h (f v) + (h c - h (f x)) * if v = x then 1 else 0 := by
    intro v
    by_cases hv : v = x
    · subst hv; simp
    · simp [hv]
  exact endSum_congr fun e _ => ⟨key _, key _⟩

private theorem endSquares_update (hc : f x ≠ c) :
    endSquares es (Function.update f x c) = endSquares es f +
      2 * nodeEnds es x * (classEnds es f c - classEnds es f (f x) + nodeEnds es x) := by
  -- The squares of the new classes over the old ones, then the ends of `x` in its new class.
  have hold : endSum es (fun v => classEnds es (Function.update f x c) (f v)) =
      endSquares es f + nodeEnds es x * (classEnds es f c - classEnds es f (f x)) := by
    simp only [classEnds_update hc]
    rw [endSum_add, endSum_mul_left, endSquares, classEnds, classEnds, endSum, endSum, endSum,
      endSum, ← edgeSum_sub]
    congr 2
    exact edgeSum_congr fun e _ => by ring
  rw [endSquares, endSum_update (classEnds es (Function.update f x c)), hold,
    classEnds_update hc, classEnds_update hc]
  simp only [if_true, if_neg hc, if_neg (Ne.symm hc)]
  ring

/-- What moving `x` into class `c` changes. -/
theorem quality_update [DecidableEq K] (hm : volume es ≠ 0) (hc : f x ≠ c) :
    quality es (Function.update f x c) - quality es f =
      2 * ((linkWeight es f x c - linkWeight es f x (f x)) - nodeEnds es x / volume es *
        (classEnds es f c - classEnds es f (f x) + nodeEnds es x)) / volume es := by
  rw [quality, quality, if_neg hm, if_neg hm, innerWeight_update, endSquares_update hc]
  field_simp
  ring

end Laws

/-! ## The range -/

private theorem volume_sub_classEnds {K : Type} [Field K] (es : List (Edge K)) (f : Nat → Nat)
    (c : Nat) : volume es - classEnds es f c = endSum es fun v => if f v = c then 0 else 1 := by
  rw [volume, classEnds, sub_eq_iff_eq_add, ← endSum_add]
  exact endSum_congr fun e _ => ⟨by split <;> simp, by split <;> simp⟩

section Range

variable {K : Type} [Field K] [LinearOrder K] [IsStrictOrderedRing K] {es : List (Edge K)}
  {f : Nat → Nat}

private theorem ite_one_nonneg (p : Prop) [Decidable p] : (0 : K) ≤ if p then 1 else 0 := by
  split
  · exact zero_le_one
  · exact le_rfl

private theorem ite_one_le_one (p : Prop) [Decidable p] : (if p then 1 else 0) ≤ (1 : K) := by
  split
  · exact le_rfl
  · exact zero_le_one

private theorem classEnds_nonneg (hw : ∀ e ∈ es, 0 ≤ e.weight) (c : Nat) :
    0 ≤ classEnds es f c :=
  endSum_nonneg hw fun _ => ite_one_nonneg _

theorem volume_nonneg (hw : ∀ e ∈ es, 0 ≤ e.weight) : 0 ≤ volume es :=
  endSum_nonneg hw fun _ => zero_le_one

private theorem weight_le_classEnds (hw : ∀ e ∈ es, 0 ≤ e.weight) {e : Edge K} (he : e ∈ es) :
    e.weight ≤ classEnds es f (f e.source) := by
  have h := le_edgeSum hw (φ := fun u v => (if f u = f e.source then (1 : K) else 0) +
    if f v = f e.source then 1 else 0)
    (fun u v => add_nonneg (ite_one_nonneg _) (ite_one_nonneg _)) he
  rw [if_pos rfl, mul_add, mul_one] at h
  exact le_trans (le_add_of_nonneg_right (mul_nonneg (hw e he) (ite_one_nonneg _))) h

/-- Two classes together have no more ends than there are. -/
private theorem classEnds_le_sub (hw : ∀ e ∈ es, 0 ≤ e.weight) {c d : Nat} (h : d ≠ c) :
    classEnds es f d ≤ volume es - classEnds es f c := by
  rw [volume_sub_classEnds]
  refine endSum_le hw fun v => ?_
  by_cases hv : f v = c
  · simp [hv, h.symm]
  · rw [if_neg hv]; exact ite_one_le_one _

private theorem innerWeight_le_volume (hw : ∀ e ∈ es, 0 ≤ e.weight) :
    innerWeight es f ≤ volume es := by
  rw [innerWeight, volume_eq]
  exact mul_le_mul_of_nonneg_left (edgeSum_le hw fun _ _ => ite_one_le_one _) zero_le_two

/-- The edges that leave class `c` have an end elsewhere, so the rest of its ends lie within. -/
private theorem two_mul_classEnds_sub_le (hw : ∀ e ∈ es, 0 ≤ e.weight) (c : Nat) :
    2 * classEnds es f c - volume es ≤ innerWeight es f := by
  rw [innerWeight, volume_eq, ← mul_sub, classEnds, endSum, ← edgeSum_sub]
  refine mul_le_mul_of_nonneg_left (edgeSum_le hw fun e _ => ?_) zero_le_two
  have h := ite_one_nonneg (K := K) (f e.source = f e.target)
  by_cases hs : f e.source = c <;> by_cases ht : f e.target = c
  · simp [hs, ht]
  · rw [if_pos hs, if_neg ht]; linarith
  · rw [if_neg hs, if_pos ht]; linarith
  · rw [if_neg hs, if_neg ht]; linarith

private theorem endSquares_pos (hw : ∀ e ∈ es, 0 ≤ e.weight) (hm : 0 < volume es) :
    0 < endSquares es f := by
  by_contra hle
  have hzero : ∀ e ∈ es, e.weight = 0 := by
    intro e he
    have h := le_edgeSum hw (φ := fun u v => classEnds es f (f u) + classEnds es f (f v))
      (fun u v => add_nonneg (classEnds_nonneg hw _) (classEnds_nonneg hw _)) he
    have h1 := mul_le_mul_of_nonneg_left (weight_le_classEnds (f := f) hw he) (hw e he)
    have h2 := mul_nonneg (hw e he) (classEnds_nonneg (f := f) hw (f e.target))
    have h3 : endSquares es f ≤ 0 := not_lt.1 hle
    rw [mul_add] at h
    exact mul_self_eq_zero.1 (le_antisymm (by unfold endSquares endSum at h3; linarith)
      (mul_self_nonneg _))
  have h0 : volume es ≤ endSum es fun _ => 0 :=
    List.sum_le_sum fun e he => by simp [hzero e he]
  rw [endSum, edgeSum] at h0
  simp only [add_zero, mul_zero, List.map_const', List.sum_replicate, nsmul_zero] at h0
  exact absurd hm (not_lt.2 h0)

theorem quality_lt_one (hw : ∀ e ∈ es, 0 ≤ e.weight) : quality es f < 1 := by
  rw [quality]
  split
  · exact zero_lt_one
  · next hm =>
    have hpos : 0 < volume es := lt_of_le_of_ne (volume_nonneg hw) (Ne.symm hm)
    rw [div_lt_one hpos]
    have := innerWeight_le_volume (f := f) hw
    have := div_pos (endSquares_pos (f := f) hw hpos) hpos
    linarith

/-- Where no class has more than half of the ends, the squares are small; where one does, most of
its ends lie within. -/
private theorem endSquares_le (hw : ∀ e ∈ es, 0 ≤ e.weight) :
    endSquares es f ≤ volume es * (volume es / 2 + innerWeight es f) := by
  have hm := volume_nonneg hw
  have hinner : 0 ≤ innerWeight es f :=
    mul_nonneg zero_le_two (edgeSum_nonneg hw fun _ _ => ite_one_nonneg _)
  by_cases hbig : ∃ c, volume es < 2 * classEnds es f c
  · obtain ⟨c, hc⟩ := hbig
    have hsplit : endSquares es f ≤ endSum es fun v =>
        (volume es - classEnds es f c) * 1 +
          (2 * classEnds es f c - volume es) * if f v = c then 1 else 0 := by
      refine endSum_le hw fun v => ?_
      by_cases hv : f v = c
      · rw [hv, if_pos rfl]; linarith
      · rw [if_neg hv]
        have := classEnds_le_sub (f := f) hw hv
        linarith
    rw [endSum_add, endSum_mul_left, endSum_mul_left] at hsplit
    have hself : (endSum es fun v => if f v = c then (1 : K) else 0) = classEnds es f c := rfl
    have hone : (endSum es fun _ => (1 : K)) = volume es := rfl
    rw [hself, hone] at hsplit
    have hleave := two_mul_classEnds_sub_le (f := f) hw c
    have htop : classEnds es f c ≤ volume es := endSum_le hw fun _ => ite_one_le_one _
    nlinarith [mul_le_mul_of_nonneg_left hleave hm]
  · have hsmall : endSquares es f ≤ endSum es fun _ => volume es / 2 * 1 := by
      refine endSum_le hw fun v => ?_
      have := not_lt.1 fun h => hbig ⟨f v, h⟩
      linarith
    rw [endSum_mul_left] at hsmall
    have hone : (endSum es fun _ => (1 : K)) = volume es := rfl
    rw [hone] at hsmall
    nlinarith [mul_nonneg hm hinner]

theorem neg_half_le_quality (hw : ∀ e ∈ es, 0 ≤ e.weight) : -(1 / 2) ≤ quality es f := by
  rw [quality]
  split
  · norm_num
  · next hm =>
    have hpos : 0 < volume es := lt_of_le_of_ne (volume_nonneg hw) (Ne.symm hm)
    rw [le_div_iff₀ hpos]
    have h : endSquares es f / volume es ≤ volume es / 2 + innerWeight es f := by
      rw [div_le_iff₀ hpos, mul_comm]
      exact endSquares_le hw
    linarith

end Range

end Communities
