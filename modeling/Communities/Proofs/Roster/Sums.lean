import Communities.Proofs.Network.Degrees
import Communities.Proofs.Roster

/-!
# Degree sums of a roster

In exact arithmetic a roster never drifts: after any moves the sum that it keeps for a community is
the sum of the degrees of its members.

* `Roster.Consistent`: a roster is in step and its sums are those of its members' degrees.
* `Roster.consistent_singletons` and `Roster.Moves.consistent`: so it is at the start, and so it
  stays, whatever the degrees.
* `Roster.consistent_iff`: said with the edges of the network, the sum of a community is the weight
  of the edge ends in it.
-/

namespace Communities

namespace Roster

/-- The members of a community, none if there is no such id. -/
def membersOf {W : Type} (r : Roster W) (c : Nat) : List Nat := r.members.getD c []

theorem toList_members {W : Type} (r : Roster W) :
    r.members.toList = (List.range r.capacity).map r.membersOf :=
  toList_eq_map_getD r.members []

/-- A roster of the nodes of a network is in step, and the sum of each community is that of the
degrees of its members. -/
structure Consistent {W : Type} [Weight W] (r : Roster W) (d : Degrees W) : Prop where
  /-- Both directions tell the same partition. -/
  indexes : r.Indexes d.byNode.size
  /-- The sums are those of the members. -/
  sumAt_eq : ∀ c < r.capacity, r.sumAt c = Weight.sum ((r.membersOf c).map d.degreeAt)

theorem Indexes.membersOf_eq {W : Type} {r : Roster W} {n c : Nat} (h : r.Indexes n)
    (hc : c < r.capacity) : r.membersOf c = (List.range n).filter (r.communityAt · = c) := by
  rw [membersOf, Array.getD_eq_getD_getElem?, h.members_eq c hc, Option.getD_some]

theorem Indexes.mem_membersOf {W : Type} {r : Roster W} {n v c : Nat} (h : r.Indexes n)
    (hc : c < r.capacity) : v ∈ r.membersOf c ↔ v < n ∧ r.communityAt v = c := by
  simp [h.membersOf_eq hc]

theorem Indexes.membersOf_eq_nil_iff {W : Type} {r : Roster W} {n c : Nat} (h : r.Indexes n)
    (hc : c < r.capacity) : r.membersOf c = [] ↔ ¬∃ u < n, r.communityAt u = c := by
  rw [List.eq_nil_iff_forall_not_mem, not_exists]
  exact forall_congr' fun u => not_congr (h.mem_membersOf hc)

variable {K : Type} [Field K] [LinearOrder K] {d : Degrees K} {net : Network K} {r r' : Roster K}
  {n v c : Nat}

theorem Indexes.sum_membersOf (h : r.Indexes n) (hc : c < r.capacity) (g : Nat → K) :
    Weight.sum ((r.membersOf c).map g) = ∑ u ∈ Finset.range n with r.communityAt u = c, g u := by
  rw [h.membersOf_eq hc, Weight.sum_eq, sum_map_filter_range]

theorem consistent_iff (hnet : net.Canonical) : r.Consistent net.degrees ↔
    r.Indexes net.size ∧ ∀ c < r.capacity, r.sumAt c = classEnds net.edges r.communityAt c := by
  have hsum : ∀ c, ∑ u ∈ Finset.range net.size with r.communityAt u = c, net.degrees.degreeAt u =
      classEnds net.edges r.communityAt c := by
    intro c
    rw [← classEnds_eq_sum hnet.endsBelow]
    refine Finset.sum_congr rfl fun u hu => hnet.degreeAt_eq ?_
    exact Finset.mem_range.1 (Finset.mem_filter.1 hu).1
  constructor
  · intro h
    have hr : r.Indexes net.size := by simpa using h.indexes
    exact ⟨hr, fun c hc => by rw [h.sumAt_eq c hc, hr.sum_membersOf hc, hsum]⟩
  · rintro ⟨hr, hsumAt⟩
    exact ⟨by simpa using hr, fun c hc => by rw [hsumAt c hc, hr.sum_membersOf hc, hsum]⟩

theorem consistent_singletons (d : Degrees K) : (singletons d).Consistent d := by
  have hr := indexes_singletons d
  refine ⟨hr, fun c hc => ?_⟩
  have hc' : c < d.byNode.size := by simpa using hc
  have hself : {u ∈ Finset.range d.byNode.size | (singletons d).communityAt u = c} = {c} := by
    ext u
    rw [Finset.mem_filter, Finset.mem_range, Finset.mem_singleton]
    constructor
    · rintro ⟨hu, hcu⟩
      rwa [communityAt_singletons hu] at hcu
    · rintro rfl
      exact ⟨hc', communityAt_singletons hc'⟩
  rw [hr.sum_membersOf hc, hself, Finset.sum_singleton]
  rfl

omit [LinearOrder K] in
/-- One node that changes its community takes its share of the sum along. -/
private theorem sum_filter_update {f : Nat → Nat} (hv : v < n) (hc : f v ≠ c) (g : Nat → K)
    (c' : Nat) : ∑ u ∈ Finset.range n with Function.update f v c u = c', g u =
      (∑ u ∈ Finset.range n with f u = c', g u) +
        g v * ((if c' = c then 1 else 0) - if c' = f v then 1 else 0) := by
  have hv' : v ∈ Finset.range n := Finset.mem_range.2 hv
  have hrest : ∑ u ∈ (Finset.range n).erase v, (if Function.update f v c u = c' then g u else 0) =
      ∑ u ∈ (Finset.range n).erase v, if f u = c' then g u else 0 :=
    Finset.sum_congr rfl fun u hu => by rw [Function.update_of_ne (Finset.ne_of_mem_erase hu)]
  rw [Finset.sum_filter, Finset.sum_filter, ← Finset.add_sum_erase _ _ hv', hrest,
    ← Finset.add_sum_erase _ (fun u => if f u = c' then g u else 0) hv', Function.update_self]
  by_cases hcc : c' = c
  · subst hcc; simp [hc, hc.symm]; ring
  · by_cases hac : c' = f v
    · subst hac; simp [hcc, Ne.symm hcc]
    · simp [hcc, hac, Ne.symm hcc, Ne.symm hac]

theorem Moves.consistent (h : r.Consistent d) (hv : v < d.byNode.size) (hc : c < r.capacity)
    (hne : r.communityAt v ≠ c) (hmove : r.Moves d.byNode.size v c (d.degreeAt v) r') :
    r'.Consistent d := by
  have hat := hmove.communityAt_eq h.indexes hv
  have hold : ∀ c' < r.capacity, r.sumAt c' =
      ∑ u ∈ Finset.range d.byNode.size with r.communityAt u = c', d.degreeAt u := fun c' hc' => by
    rw [h.sumAt_eq c' hc', h.indexes.sum_membersOf hc']
  refine ⟨hmove.indexes, fun c' hc' => ?_⟩
  rw [hmove.indexes.sum_membersOf hc', hat, sum_filter_update hv hne]
  rw [hmove.capacity_eq] at hc'
  by_cases hcc : c' = c
  · rw [hcc, hmove.sumAt_target, hold c hc, if_pos rfl, if_neg hne.symm]
    ring
  by_cases hac : c' = r.communityAt v
  · subst hac
    by_cases halone : ∀ u < d.byNode.size, r.communityAt u = r.communityAt v → u = v
    · have hself : {u ∈ Finset.range d.byNode.size | r.communityAt u = r.communityAt v} = {v} := by
        ext u
        rw [Finset.mem_filter, Finset.mem_range, Finset.mem_singleton]
        exact ⟨fun hu => halone u hu.1 hu.2, fun hu => by rw [hu]; exact ⟨hv, rfl⟩⟩
      rw [hmove.sumAt_alone halone, hself, Finset.sum_singleton, if_neg hne, if_pos rfl]
      ring
    · simp only [not_forall] at halone
      obtain ⟨u, hu, hcu, huv⟩ := halone
      rw [hmove.sumAt_origin ⟨u, hu, huv, hcu⟩, hold _ hc', if_neg hne, if_pos rfl]
      ring
  · rw [hmove.sumAt_other c' hc' hcc hac, hold c' hc', if_neg hcc, if_neg hac]
    ring

end Roster

end Communities
