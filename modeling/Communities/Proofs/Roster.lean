import Communities.Roster
import Communities.Proofs.Loop
import Mathlib.Data.List.Sort

/-!
# Rosters stay in step

A roster keeps the same partition in two directions, from nodes to communities and back. One
equation for each community says that they agree, and it is kept by every move, in any arithmetic.

* `Roster.Indexes`: the members of each community are exactly the nodes in it, in ascending order.
* `Roster.indexes_singletons`: the roster of single nodes starts in step.
* `Roster.Moves` is what one move does; `Roster.move_eq_ok`: a move to another community succeeds
  and does that, and `Roster.Moves.indexes`: it keeps the roster in step.
-/

namespace Communities

/-! ## Insertion -/

private theorem mem_takeWhile_append {x y : Nat} {xs : List Nat} :
    y ∈ xs.takeWhile (· < x) ++ x :: xs.dropWhile (· < x) ↔ y = x ∨ y ∈ xs := by
  conv_rhs => rw [← List.takeWhile_append_dropWhile (p := (· < x)) (l := xs)]
  simp only [List.mem_append, List.mem_cons]
  tauto

theorem mem_insertAscending {x y : Nat} {xs : List Nat} :
    y ∈ insertAscending x xs ↔ y = x ∨ y ∈ xs := by
  unfold insertAscending
  split
  · next h => exact ⟨.inr, fun h' => h'.elim (fun e => e ▸ h) id⟩
  · exact mem_takeWhile_append

theorem pairwise_insertAscending {x : Nat} {xs : List Nat} (h : xs.Pairwise (· < ·)) :
    (insertAscending x xs).Pairwise (· < ·) := by
  unfold insertAscending
  split
  · exact h
  next hx =>
  induction xs with
  | nil => simp
  | cons y ys ih =>
    rw [List.pairwise_cons] at h
    rw [List.mem_cons, not_or] at hx
    by_cases hyx : y < x
    · simp only [List.takeWhile_cons, List.dropWhile_cons, hyx, decide_true, if_true,
        List.cons_append, List.pairwise_cons]
      refine ⟨fun z hz => ?_, ih h.2 hx.2⟩
      rcases mem_takeWhile_append.1 hz with rfl | hz
      · exact hyx
      · exact h.1 z hz
    · simp only [List.takeWhile_cons, List.dropWhile_cons, hyx, decide_false, Bool.false_eq_true,
        if_false, List.nil_append, List.pairwise_cons]
      refine ⟨fun z hz => ?_, h⟩
      rcases List.mem_cons.1 hz with rfl | hz
      · omega
      · have := h.1 z hz; omega

theorem length_insertAscending {x : Nat} {xs : List Nat} (h : x ∉ xs) :
    (insertAscending x xs).length = xs.length + 1 := by
  have hsplit := congrArg List.length (List.takeWhile_append_dropWhile (p := (· < x)) (l := xs))
  rw [List.length_append] at hsplit
  rw [insertAscending, if_neg h, List.length_append, List.length_cons]
  omega

section Filter

variable {f : Nat → Nat} {n v c : Nat}

private theorem pairwise_filter_range (p : Nat → Bool) :
    ((List.range n).filter p).Pairwise (· < ·) :=
  List.pairwise_lt_range.sublist List.filter_sublist

private theorem erase_filter_range (hne : f v ≠ c) :
    ((List.range n).filter (f · = f v)).erase v =
      (List.range n).filter (Function.update f v c · = f v) := by
  rw [List.Nodup.erase_eq_filter ((pairwise_filter_range _).imp Nat.ne_of_lt), List.filter_filter]
  refine List.filter_congr fun u _ => ?_
  by_cases hu : u = v
  · simp [hu, hne.symm]
  · simp [hu]

private theorem insert_filter_range (hv : v < n) :
    insertAscending v ((List.range n).filter (f · = c)) =
      (List.range n).filter (Function.update f v c · = c) := by
  refine List.Pairwise.eq_of_mem_iff (pairwise_insertAscending (pairwise_filter_range _))
    (pairwise_filter_range _) fun u => ?_
  rw [mem_insertAscending]
  by_cases hu : u = v
  · simp [hu, hv]
  · simp [hu]

private theorem filter_range_update {c' : Nat} (h : c' ≠ f v) (h' : c' ≠ c) :
    (List.range n).filter (Function.update f v c · = c') = (List.range n).filter (f · = c') := by
  refine List.filter_congr fun u _ => ?_
  by_cases hu : u = v
  · simp [hu, h.symm, h'.symm]
  · simp [hu]

end Filter

namespace Roster

/-! ## Both directions -/

variable {W : Type}

/-- The community of a node, zero if there is no such node. -/
def communityAt (r : Roster W) (v : Nat) : Nat := r.communityOf.getD v 0

/-- The degree sum of a community, zero if there is no such id. -/
def sumAt [Weight W] (r : Roster W) (c : Nat) : W := r.degreeSums.getD c 0

/-- Both directions of a roster tell the same partition of the nodes below `n`. -/
structure Indexes (r : Roster W) (n : Nat) : Prop where
  /-- Each node has a community. -/
  size_eq : r.communityOf.size = n
  /-- The communities have ids below the capacity. -/
  communityAt_lt : ∀ v < n, r.communityAt v < r.capacity
  /-- The members of a community are the nodes in it, ascending. -/
  members_eq : ∀ c < r.capacity,
    r.members[c]? = some ((List.range n).filter (r.communityAt · = c))
  /-- Each community has a degree sum. -/
  size_degreeSums : r.degreeSums.size = r.capacity

theorem Indexes.community_eq {r : Roster W} {n v : Nat} (h : r.Indexes n) (hv : v < n) :
    r.community v = .ok (r.communityAt v) := by
  have hv' : v < r.communityOf.size := h.size_eq ▸ hv
  rw [community, fetch_of_lt hv', communityAt, Array.getD, dif_pos hv']
  rfl

theorem Indexes.community_eq_ok_iff {r : Roster W} {n v c : Nat} (h : r.Indexes n) :
    r.community v = .ok c ↔ v < n ∧ r.communityAt v = c := by
  by_cases hv : v < n
  · rw [h.community_eq hv, Except.ok.injEq]
    exact (and_iff_right hv).symm
  · have hnone : r.community v = .error .outOfRange :=
      fetch_eq_error_iff.2 ⟨by rw [h.size_eq]; exact Nat.not_lt.1 hv, rfl⟩
    simp [hnone, hv]

theorem communityAt_singletons {d : Degrees W} {v : Nat} (hv : v < d.byNode.size) :
    (singletons d).communityAt v = v := by
  simp [singletons, communityAt, hv]

theorem indexes_singletons (d : Degrees W) : (singletons d).Indexes d.byNode.size := by
  refine ⟨by simp [singletons], fun v hv => ?_, fun c hc => ?_, by simp [singletons, capacity]⟩
  · rwa [communityAt_singletons hv, capacity_singletons]
  · rw [capacity_singletons] at hc
    have hmem : (singletons d).members[c]? = some [c] := by simp [singletons, hc]
    rw [hmem]
    congr 1
    refine List.Pairwise.eq_of_mem_iff (r := (· < ·)) (by simp) (pairwise_filter_range _)
      fun v => ?_
    simp only [List.mem_singleton, List.mem_filter, List.mem_range, decide_eq_true_eq]
    constructor
    · rintro rfl; exact ⟨hc, communityAt_singletons hc⟩
    · rintro ⟨hv, h⟩; rwa [communityAt_singletons hv] at h

theorem communityAt_setIfInBounds {r r' : Roster W} {n v c : Nat} (h : r.Indexes n) (hv : v < n)
    (hr' : r'.communityOf = r.communityOf.setIfInBounds v c) :
    r'.communityAt = Function.update r.communityAt v c := by
  have hupdate := getD_setIfInBounds (h.size_eq.symm ▸ hv : v < r.communityOf.size) c
  rwa [← hr'] at hupdate

/-- The roster whose tables have been updated one by one is in step. -/
private theorem indexes_update {r : Roster W} {n v c : Nat} (h : r.Indexes n) (hv : v < n)
    (hc : c < r.capacity) (hne : r.communityAt v ≠ c) {sums : Array W} {occupied : Nat}
    (hsums : sums.size = r.capacity) :
    Indexes ⟨r.communityOf.setIfInBounds v c,
      (r.members.modify (r.communityAt v) (·.erase v)).modify c (insertAscending v),
      sums, occupied⟩ n := by
  have hat := @communityAt_setIfInBounds W r ⟨r.communityOf.setIfInBounds v c,
    (r.members.modify (r.communityAt v) (·.erase v)).modify c (insertAscending v), sums, occupied⟩
    n v c h hv rfl
  have hcap : capacity ⟨r.communityOf.setIfInBounds v c, (r.members.modify (r.communityAt v)
      (·.erase v)).modify c (insertAscending v), sums, occupied⟩ = r.capacity := by simp [capacity]
  refine ⟨by simpa using h.size_eq, fun u hu => ?_, fun c' hc' => ?_, hsums.trans hcap.symm⟩
  · rw [hat, hcap, Function.update_apply]
    split
    · exact hc
    · exact h.communityAt_lt u hu
  · rw [hcap] at hc'
    rw [hat, Array.getElem?_modify, Array.getElem?_modify, h.members_eq c' hc']
    by_cases hcc : c = c'
    · subst hcc
      rw [if_pos rfl, if_neg hne, Option.map_some, insert_filter_range hv]
    · rw [if_neg hcc]
      by_cases hac : r.communityAt v = c'
      · subst hac
        rw [if_pos rfl, Option.map_some, erase_filter_range hne]
      · rw [if_neg hac, filter_range_update (Ne.symm hac) (Ne.symm hcc)]

variable [Weight W]

theorem Indexes.degreeSum_eq {r : Roster W} {n c : Nat} (h : r.Indexes n) (hc : c < r.capacity) :
    r.degreeSum c = .ok (r.sumAt c) := by
  have hc' : c < r.degreeSums.size := h.size_degreeSums ▸ hc
  rw [degreeSum, fetch_of_lt hc', sumAt, Array.getD, dif_pos hc']
  rfl

/-! ## One move -/

/-- What moving node `v`, of degree `d`, to community `c` makes of the roster `r`. -/
structure Moves (r : Roster W) (n v c : Nat) (d : W) (r' : Roster W) : Prop where
  /-- The community of `v` is now `c`, all others are what they were. -/
  communityOf_eq : r'.communityOf = r.communityOf.setIfInBounds v c
  /-- There are as many ids as before. -/
  capacity_eq : r'.capacity = r.capacity
  /-- The sum of the target has grown by the degree. -/
  sumAt_target : r'.sumAt c = r.sumAt c + d
  /-- The sum of the origin has lost it. -/
  sumAt_origin : (∃ u < n, u ≠ v ∧ r.communityAt u = r.communityAt v) →
    r'.sumAt (r.communityAt v) = r.sumAt (r.communityAt v) - d
  /-- If `v` was alone, the sum of the origin is exactly zero. -/
  sumAt_alone : (∀ u < n, r.communityAt u = r.communityAt v → u = v) →
    r'.sumAt (r.communityAt v) = 0
  /-- All other sums are what they were. -/
  sumAt_other : ∀ c' < r.capacity, c' ≠ c → c' ≠ r.communityAt v → r'.sumAt c' = r.sumAt c'
  /-- The target counts as occupied from now on, the origin no longer if `v` was alone. -/
  occupied_eq : r'.occupied =
    (if ∃ u < n, r.communityAt u = c then r.occupied else r.occupied + 1) -
      (if ∃ u < n, u ≠ v ∧ r.communityAt u = r.communityAt v then 0 else 1)
  /-- The roster is in step. -/
  indexes : r'.Indexes n

theorem Moves.communityAt_eq {r r' : Roster W} {n v c : Nat} {d : W} (hmove : r.Moves n v c d r')
    (h : r.Indexes n) (hv : v < n) : r'.communityAt = Function.update r.communityAt v c :=
  communityAt_setIfInBounds h hv hmove.communityOf_eq

theorem move_eq_ok {r : Roster W} {n v c : Nat} (h : r.Indexes n) (hv : v < n)
    (hc : c < r.capacity) (hne : r.communityAt v ≠ c) (d : W) :
    ∃ r', r.move v (r.communityAt v) c d = .ok r' ∧ r.Moves n v c d r' := by
  have hv' : v < r.communityOf.size := h.size_eq ▸ hv
  have ha : r.communityAt v < r.members.size := h.communityAt_lt v hv
  have hc' : c < r.members.size := hc
  have ha' : r.communityAt v < r.degreeSums.size := h.size_degreeSums ▸ ha
  have hc'' : c < r.degreeSums.size := h.size_degreeSums ▸ hc
  have hfetch : fetch r.communityOf v = .ok (r.communityAt v) := h.community_eq hv
  have hleft : ((r.members.modify (r.communityAt v) (·.erase v)).modify c
      (insertAscending v))[r.communityAt v]? =
      some ((List.range n).filter (Function.update r.communityAt v c · = r.communityAt v)) := by
    rw [Array.getElem?_modify, if_neg hne.symm, Array.getElem?_modify, if_pos rfl,
      h.members_eq _ ha, Option.map_some, erase_filter_range hne]
  have hempty : ((List.range n).filter
      (Function.update r.communityAt v c · = r.communityAt v)).isEmpty = true ↔
      ∀ u < n, r.communityAt u = r.communityAt v → u = v := by
    simp only [List.isEmpty_iff, List.filter_eq_nil_iff, List.mem_range, decide_eq_true_eq]
    refine forall_congr' fun u => imp_congr_right fun _ => ?_
    by_cases hu : u = v
    · simp [hu, hne.symm]
    · simp [hu]
  have hright : ((r.members.modify (r.communityAt v) (·.erase v)).modify c (insertAscending v))[c]? =
      some (insertAscending v ((List.range n).filter (r.communityAt · = c))) := by
    rw [Array.getElem?_modify, if_pos rfl, Array.getElem?_modify, if_neg hne, h.members_eq c hc,
      Option.map_some]
  have hopen : (insertAscending v ((List.range n).filter (r.communityAt · = c))).length = 1 ↔
      ¬∃ u < n, r.communityAt u = c := by
    rw [length_insertAscending (by simp [hne]), Nat.add_eq_right, List.length_eq_zero_iff,
      List.filter_eq_nil_iff]
    simp
  have hsum : ∀ f g : W → W, ∀ c' < r.capacity,
      ((r.degreeSums.modify (r.communityAt v) f).modify c g).getD c' 0 =
        if c' = c then g (r.sumAt c) else if c' = r.communityAt v then f (r.sumAt c')
        else r.sumAt c' := by
    intro f g c' hc'
    have hc' : c' < r.degreeSums.size := h.size_degreeSums ▸ hc'
    simp only [Array.getD, Array.size_modify, hc', dif_pos, Array.getInternal_eq_getElem,
      Array.getElem_modify, sumAt, hc'']
    by_cases hcc : c = c'
    · subst hcc; simp [hne]
    · rw [if_neg hcc, if_neg (Ne.symm hcc)]
      by_cases hac : r.communityAt v = c'
      · subst hac; simp
      · rw [if_neg hac, if_neg (Ne.symm hac)]
  rw [move, hfetch, ok_bind, if_neg (by simp), if_neg hne, adjust_of_lt _ ha, ok_bind,
    adjust_of_lt _ (by rwa [Array.size_modify]), ok_bind, adjust_of_lt _ hv', ok_bind,
    fetch_eq_ok_iff.2 hright, ok_bind, modify_const]
  simp only [fetch_eq_ok_iff.2 hleft, ok_bind, hopen, ite_not]
  split
  · next hnone =>
    rw [adjust_of_lt _ ha', ok_bind, adjust_of_lt _ (by rwa [Array.size_modify]), ok_bind]
    have halone : ¬∃ u < n, u ≠ v ∧ r.communityAt u = r.communityAt v := by
      rintro ⟨u, hu, huv, hcu⟩
      exact huv (hempty.1 hnone u hu hcu)
    refine ⟨_, rfl, rfl, by simp [capacity], ?_, ?_, ?_, ?_, by rw [if_neg halone],
      indexes_update h hv hc hne (by simpa using h.size_degreeSums)⟩
    · rw [sumAt, hsum _ _ c hc, if_pos rfl]
    · exact fun hshared => absurd hshared halone
    · intro _
      rw [sumAt, hsum _ _ _ ha, if_neg hne, if_pos rfl]
    · intro c' hc' hcc hac
      rw [sumAt, hsum _ _ c' hc', if_neg hcc, if_neg hac]
  · next hsome =>
    rw [adjust_of_lt _ ha', ok_bind, adjust_of_lt _ (by rwa [Array.size_modify]), ok_bind]
    have hshared : ∃ u < n, u ≠ v ∧ r.communityAt u = r.communityAt v := by
      by_contra hnone
      exact hsome (hempty.2 fun u hu hcu => by_contra fun huv => hnone ⟨u, hu, huv, hcu⟩)
    refine ⟨_, rfl, rfl, by simp [capacity], ?_, ?_, ?_, ?_, by rw [if_pos hshared, Nat.sub_zero],
      indexes_update h hv hc hne (by simpa using h.size_degreeSums)⟩
    · rw [sumAt, hsum _ _ c hc, if_pos rfl]
    · intro _
      rw [sumAt, hsum _ _ _ ha, if_neg hne, if_pos rfl]
    · intro halone
      exact absurd (hempty.2 halone) hsome
    · intro c' hc' hcc hac
      rw [sumAt, hsum _ _ c' hc', if_neg hcc, if_neg hac]

end Roster

end Communities
