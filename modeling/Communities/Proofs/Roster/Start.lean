import Communities.Proofs.Roster.Occupied
import Communities.Proofs.Roster.Sums

/-!
# Where a roster starts

A roster starts with every node alone, or with the classes of a partition for communities, where a
label that no node has becomes a community without members. Either way all of its parts tell the
same partition from the start, in any arithmetic.

* `Roster.ofPartition_eq_ok`: the roster of a partition, and when it can be made.
* `Roster.Starts`: the rosters that a history can begin with; `Roster.Starts.indexes`,
  `Roster.Starts.counts`, `Roster.Starts.vacantZero` and `Roster.Starts.consistent`: what they tell.
-/

namespace Communities

namespace Roster

variable {W : Type} [Weight W] {d : Degrees W} {p : Partition} {r : Roster W} {n : Nat}

/-- The degree sum of each community without members is exactly zero. -/
def VacantZero (r : Roster W) : Prop := ∀ c < r.capacity, r.membersOf c = [] → r.sumAt c = 0

/-- The sums of the classes gather the degrees in the order of the nodes. -/
private theorem classSums_eq_ok (hp : p.Covers d.byNode.size) (htable : 8 * p.count < tableBytes) :
    ∃ sums, classSums p d = .ok sums ∧ sums.size = p.count ∧ ∀ c < p.count, sums.getD c 0 =
      Weight.sum (((List.range d.byNode.size).filter (p.labelAt · = c)).map d.degreeAt) := by
  have hnodes : p.labels.toList.zipIdx =
      (List.range d.byNode.size).map fun v => (p.labelAt v, v) := by
    rw [hp.toList_labels, zipIdx_map_range]
  have hfold := foldlM_eq_ok (b := Array.replicate p.count (0 : W)) (l := p.labels.toList.zipIdx)
    (f := fun table (x : Nat × Nat) => do
      let degree ← d.degree x.2
      adjust table x.1 (· + degree))
    (g := fun table x => table.modify x.1 (· + d.degreeAt x.2))
    (fun table => table.size = p.count) (by simp) fun table htable x hx => by
      rw [hnodes] at hx
      obtain ⟨v, hv, rfl⟩ := List.mem_map.1 hx
      rw [List.mem_range] at hv
      rw [Degrees.degree_eq_ok hv, ok_bind, adjust_of_lt _ (htable ▸ hp.labelAt_lt v hv),
        Array.size_modify]
      exact ⟨rfl, htable⟩
  refine ⟨_, by rw [classSums, blankWeights_eq_ok _ htable, ok_bind]; exact hfold.1, hfold.2,
    fun c hc => ?_⟩
  rw [hnodes, List.foldl_map]
  exact getD_foldl_modify_add p.labelAt d.degreeAt _ hc

/-- The classes of a partition can be made into communities unless there are too many. -/
theorem ofPartition_eq_ok (hp : p.Covers d.byNode.size) (htable : 24 * p.count < tableBytes) :
    ∃ r, ofPartition p d = .ok r ∧ r.communityOf = p.labels ∧ r.capacity = p.count ∧
      r.Consistent d ∧ r.Counts d.byNode.size := by
  obtain ⟨members, hmembers, hsize, hclass⟩ := hp.classes_eq_ok htable
  obtain ⟨sums, hsums, hsize', hsum⟩ := classSums_eq_ok (d := d) hp (by omega)
  have hlt : ∀ v < d.byNode.size, p.labelAt v < members.size := by
    rw [hsize]
    exact hp.labelAt_lt
  have hindexes : Indexes ⟨p.labels, members, sums, members.countP (!·.isEmpty)⟩ d.byNode.size :=
    ⟨hp.size_eq, hlt, fun c hc => hclass c (hsize ▸ hc), hsize'.trans hsize.symm⟩
  have hbuilt : ofPartition p d = .ok ⟨p.labels, members, sums, members.countP (!·.isEmpty)⟩ := by
    rw [ofPartition, hmembers, ok_bind, hsums, ok_bind]
    rfl
  refine ⟨_, hbuilt, rfl, hsize, ⟨hindexes, fun c hc => ?_⟩, hindexes.countP_members⟩
  rw [hindexes.membersOf_eq hc]
  exact hsum c (hsize ▸ hc)

theorem table_lt_of_ofPartition (h : ofPartition p d = .ok r) : 24 * p.count < tableBytes := by
  obtain ⟨members, hmembers, -⟩ := bind_eq_ok_iff.1 h
  exact p.table_lt_of_classes hmembers

theorem Consistent.vacantZero (h : r.Consistent d) : r.VacantZero := by
  intro c hc hnone
  rw [h.sumAt_eq c hc, hnone]
  rfl

/-! ## The two ways to start -/

/-- The rosters of the nodes of `d` before any move. -/
inductive Starts (d : Degrees W) : Roster W → Prop
  /-- Every node alone. -/
  | alone : Starts d (singletons d)
  /-- The classes of a partition of the same nodes. -/
  | classes {p : Partition} {r : Roster W} (covers : p.Covers d.byNode.size)
      (built : ofPartition p d = .ok r) : Starts d r

private theorem Starts.of_covers (covers : p.Covers d.byNode.size)
    (built : ofPartition p d = .ok r) : r.Consistent d ∧ r.Counts d.byNode.size := by
  obtain ⟨r', hr', -, -, hconsistent, hcounts⟩ :=
    ofPartition_eq_ok covers (table_lt_of_ofPartition built)
  rw [built] at hr'
  cases hr'
  exact ⟨hconsistent, hcounts⟩

theorem Starts.indexes (h : Starts d r) : r.Indexes d.byNode.size := by
  cases h with
  | alone => exact indexes_singletons d
  | classes covers built => exact (of_covers covers built).1.indexes

theorem Starts.counts (h : Starts d r) : r.Counts d.byNode.size := by
  cases h with
  | alone =>
    have hused : usedLabels d.byNode.size (singletons d).communityAt =
        Finset.range d.byNode.size := by
      rw [usedLabels_congr fun v hv => communityAt_singletons hv]
      exact Finset.image_id
    rw [Counts, hused, Finset.card_range]
    rfl
  | classes covers built => exact (of_covers covers built).2

theorem Starts.vacantZero (h : Starts d r) : r.VacantZero := by
  cases h with
  | alone =>
    -- Every id is that of a node, which is its member.
    intro c hc hnone
    rw [(indexes_singletons d).membersOf_eq_nil_iff hc] at hnone
    rw [capacity_singletons] at hc
    exact absurd ⟨c, hc, communityAt_singletons hc⟩ hnone
  | classes covers built => exact (of_covers covers built).1.vacantZero

theorem Starts.consistent {K : Type} [Field K] [LinearOrder K] {d : Degrees K} {r : Roster K}
    (h : Starts d r) : r.Consistent d := by
  cases h with
  | alone => exact consistent_singletons d
  | classes covers built => exact (of_covers covers built).1

end Roster

end Communities
