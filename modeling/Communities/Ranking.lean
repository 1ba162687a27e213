/-!
# Rankings

The distinct numbers of a list in ascending order. The position of a number in a ranking is its
rank: how many distinct numbers of the list are smaller. Dense community labels are the ranks of
arbitrary labels, dense vertex ids the ranks of the labels in a file.

* `Ranking.mem_values`: a ranking holds exactly the numbers of the list.
* `Ranking.values_pairwise`: in strictly ascending order.
* `Ranking.rank_eq_countP`: the rank found by bisection is the number of smaller values.
-/

namespace Communities

/-- The distinct numbers of a list, ascending. -/
structure Ranking where
  /-- The numbers. -/
  values : Array Nat
  deriving DecidableEq, Repr

namespace Ranking

/-- Puts `x` in front of a list unless it is there already. -/
def pushNew (x : Nat) : List Nat → List Nat
  | [] => [x]
  | y :: ys => if x = y then y :: ys else x :: y :: ys

/-- The ranking of the numbers in a list. -/
def ofList (xs : List Nat) : Ranking :=
  ⟨(xs.mergeSort.foldr pushNew []).toArray⟩

/-- The number of ranks. -/
def size (r : Ranking) : Nat := r.values.size

/-- The end of the values below `x` between `lo` and `hi`, by bisection. -/
def bisect (values : Array Nat) (x lo hi : Nat) (bound : hi ≤ values.size) : Nat :=
  if open_ : lo < hi then
    have middle : (lo + hi) / 2 < values.size := by omega
    if values[(lo + hi) / 2] < x then bisect values x ((lo + hi) / 2 + 1) hi bound
    else bisect values x lo ((lo + hi) / 2) (by omega)
  else lo
termination_by hi - lo

/-- The number of values below `x`. -/
def rank (r : Ranking) (x : Nat) : Nat := bisect r.values x 0 r.values.size (Nat.le_refl _)

/-- The position of `x`, if it is one of the values. -/
def find? (r : Ranking) (x : Nat) : Option Nat :=
  if r.values[r.rank x]? = some x then some (r.rank x) else none

/-! ## The values -/

theorem mem_pushNew {a x : Nat} {ys : List Nat} : a ∈ pushNew x ys ↔ a = x ∨ a ∈ ys := by
  cases ys with
  | nil => simp [pushNew]
  | cons y ys =>
    by_cases h : x = y <;> simp [pushNew, h]

theorem mem_foldr_pushNew {a : Nat} {xs : List Nat} : a ∈ xs.foldr pushNew [] ↔ a ∈ xs := by
  induction xs with
  | nil => simp
  | cons x xs ih => simp [mem_pushNew, ih]

theorem mem_values {a : Nat} {xs : List Nat} : a ∈ (ofList xs).values ↔ a ∈ xs := by
  simp [ofList, mem_foldr_pushNew, List.mem_mergeSort]

private theorem pairwise_pushNew {x : Nat} {ys : List Nat} (hx : ∀ y ∈ ys, x ≤ y)
    (hys : ys.Pairwise (· < ·)) : (pushNew x ys).Pairwise (· < ·) := by
  cases ys with
  | nil => simp [pushNew]
  | cons y ys =>
    by_cases h : x = y
    · simpa [pushNew, h] using hys
    · have hxy : x < y := by have := hx y (by simp); omega
      simp only [pushNew, h, if_false, List.pairwise_cons] at hys ⊢
      refine ⟨fun z hz => ?_, hys⟩
      rcases List.mem_cons.1 hz with rfl | hz
      · exact hxy
      · have := hys.1 z hz; omega

private theorem pairwise_foldr_pushNew {xs : List Nat} (h : xs.Pairwise (· ≤ ·)) :
    (xs.foldr pushNew []).Pairwise (· < ·) := by
  induction xs with
  | nil => simp
  | cons x xs ih =>
    rw [List.pairwise_cons] at h
    exact pairwise_pushNew (fun y hy => h.1 y (mem_foldr_pushNew.1 hy)) (ih h.2)

theorem values_pairwise (xs : List Nat) : (ofList xs).values.toList.Pairwise (· < ·) := by
  have : xs.mergeSort.Pairwise (fun a b => decide (a ≤ b) = true) :=
    List.pairwise_mergeSort (fun a b c => by simp; omega) (fun a b => by simp; omega) xs
  exact pairwise_foldr_pushNew (this.imp (by simp))

/-! ## Ranks -/

private theorem bisect_spec {values : Array Nat} (hs : values.toList.Pairwise (· < ·)) (x : Nat)
    {lo hi : Nat} (hhi : hi ≤ values.size) (hlo : lo ≤ hi)
    (below : ∀ i, (h : i < values.size) → i < lo → values[i] < x)
    (above : ∀ i, (h : i < values.size) → hi ≤ i → x ≤ values[i]) :
    bisect values x lo hi hhi ≤ values.size ∧
      ∀ i, (h : i < values.size) → (i < bisect values x lo hi hhi ↔ values[i] < x) := by
  have mono : ∀ i j, (hi : i < values.size) → (hj : j < values.size) → i ≤ j →
      values[i] ≤ values[j] := by
    intro i j hi hj hij
    rcases Nat.lt_or_eq_of_le hij with h | rfl
    · have := List.pairwise_iff_getElem.1 hs i j (by simpa using hi) (by simpa using hj) h
      exact Nat.le_of_lt (by simpa only [Array.getElem_toList] using this)
    · exact Nat.le_refl _
  fun_induction bisect values x lo hi hhi with
  | case1 lo hi bound h middle hlt ih =>
    refine ih (by omega) (fun i hi' hl => ?_) above
    exact Nat.lt_of_le_of_lt (mono i _ hi' middle (by omega)) hlt
  | case2 lo hi bound h middle hge ih =>
    refine ih (by omega) below (fun i hi' hl => ?_)
    exact Nat.le_trans (by omega) (mono _ i middle hi' hl)
  | case3 lo hi bound h =>
    refine ⟨by omega, fun i hi' => ⟨fun hl => below i hi' hl, fun hv => ?_⟩⟩
    by_cases hl : i < lo
    · exact hl
    · have := above i hi' (by omega); omega

/-- The rank splits an ascending ranking into the values below `x` and the others. -/
theorem lt_rank_iff {r : Ranking} (hs : r.values.toList.Pairwise (· < ·)) {x i : Nat}
    (hi : i < r.values.size) : i < r.rank x ↔ r.values[i] < x :=
  (bisect_spec hs x (Nat.le_refl _) (Nat.zero_le _) (by omega) (by omega)).2 i hi

theorem rank_le_size {r : Ranking} (hs : r.values.toList.Pairwise (· < ·)) (x : Nat) :
    r.rank x ≤ r.size :=
  (bisect_spec hs x (Nat.le_refl _) (Nat.zero_le _) (by omega) (by omega)).1

private theorem countP_eq_of_split {xs : List Nat} {x k : Nat} (hk : k ≤ xs.length)
    (h : ∀ i, (hi : i < xs.length) → (i < k ↔ xs[i] < x)) : xs.countP (· < x) = k := by
  induction xs generalizing k with
  | nil => simp at hk; simp [hk]
  | cons y ys ih =>
    have h0 := h 0 (by simp)
    simp only [List.getElem_cons_zero] at h0
    cases k with
    | zero =>
      rw [List.countP_eq_zero.2]
      intro z hz
      obtain ⟨i, hi, rfl⟩ := List.getElem_of_mem hz
      have := h i hi
      simp only [decide_eq_true_eq]
      omega
    | succ k =>
      have hk' : k ≤ ys.length := by simpa using hk
      have := ih hk' (fun i hi => by
        have := h (i + 1) (by simp; omega)
        simpa using this)
      rw [List.countP_cons, this]
      have : y < x := h0.1 (by omega)
      simp [this]

theorem rank_eq_countP {r : Ranking} (hs : r.values.toList.Pairwise (· < ·)) (x : Nat) :
    r.rank x = r.values.toList.countP (· < x) :=
  (countP_eq_of_split (by simpa [size] using rank_le_size hs x)
    (fun i hi => by simpa using lt_rank_iff hs (x := x) (by simpa using hi))).symm

end Ranking

end Communities
