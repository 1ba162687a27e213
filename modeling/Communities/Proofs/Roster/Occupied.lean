import Communities.Proofs.Partition
import Communities.Proofs.Roster.Sums
import Mathlib.Data.Finset.Card

/-!
# Occupied communities

The communities that have members are the labels that some node has. A move takes at most one away
and adds at most one, and the count that a roster keeps follows it, in any arithmetic.

* `usedLabels`: the labels of the nodes below `n`, with `card_usedLabels_update`: how many there are
  after one node has been relabelled.
* `Roster.Indexes.countP_members` and `Partition.count_ofLabels`: a roster has as many lists with
  members, and its partition as many classes.
* `Roster.Counts`: the count of a roster is right; `Roster.Moves.counts`: it stays right, and
  `Roster.Moves.occupied_add`: without ever being off by one.
-/

namespace Communities

/-! ## Labels in use -/

section UsedLabels

variable {f : Nat → Nat} {n v c : Nat}

/-- The labels of the nodes below `n`. -/
def usedLabels (n : Nat) (f : Nat → Nat) : Finset Nat := (Finset.range n).image f

/-- The labels of the nodes below `n` other than `v`. -/
def otherLabels (n : Nat) (f : Nat → Nat) (v : Nat) : Finset Nat :=
  ((Finset.range n).erase v).image f

theorem mem_usedLabels : c ∈ usedLabels n f ↔ ∃ u < n, f u = c := by
  simp [usedLabels]

theorem mem_otherLabels : c ∈ otherLabels n f v ↔ ∃ u < n, u ≠ v ∧ f u = c := by
  simp only [otherLabels, Finset.mem_image, Finset.mem_erase, Finset.mem_range]
  exact exists_congr fun u => by tauto

theorem usedLabels_congr {g : Nat → Nat} (h : ∀ v < n, f v = g v) :
    usedLabels n f = usedLabels n g :=
  Finset.image_congr fun v hv => h v (Finset.mem_range.1 hv)

theorem usedLabels_eq_insert (hv : v < n) : usedLabels n f = insert (f v) (otherLabels n f v) := by
  rw [usedLabels, otherLabels, ← Finset.image_insert, Finset.insert_erase (Finset.mem_range.2 hv)]

theorem otherLabels_update : otherLabels n (Function.update f v c) v = otherLabels n f v := by
  refine Finset.image_congr fun u hu => ?_
  exact Function.update_of_ne (Finset.ne_of_mem_erase (Finset.mem_coe.1 hu)) _ _

theorem card_usedLabels (hv : v < n) :
    (usedLabels n f).card =
      (otherLabels n f v).card + if f v ∈ otherLabels n f v then 0 else 1 := by
  rw [usedLabels_eq_insert hv, Finset.card_insert_eq_ite]
  split <;> rfl

/-- Relabelling a node can only add its new label. -/
theorem card_usedLabels_update (hv : v < n) :
    (usedLabels n (Function.update f v c)).card =
      (otherLabels n f v).card + if c ∈ otherLabels n f v then 0 else 1 := by
  rw [card_usedLabels hv, otherLabels_update, Function.update_self]

theorem card_usedLabels_le (n : Nat) (f : Nat → Nat) : (usedLabels n f).card ≤ n := by
  simpa [usedLabels] using Finset.card_image_le (s := Finset.range n) (f := f)

end UsedLabels

/-- There are as many dense labels as labels in use. -/
theorem Partition.count_ofLabels {labels : Array Nat} {n : Nat} (hsize : labels.size = n) :
    (ofLabels labels).count = (usedLabels n (labels.getD · 0)).card := by
  have hcount : Finset.range (ofLabels labels).count = usedLabels n (ofLabels labels).labelAt := by
    ext c
    rw [Finset.mem_range, mem_usedLabels]
    constructor
    · rintro hc
      obtain ⟨v, hv, hlabel⟩ := exists_labelAt_ofLabels hc
      exact ⟨v, hsize ▸ hv, hlabel⟩
    · rintro ⟨v, hv, rfl⟩
      exact (fits_ofLabels hsize).labelAt_lt v hv
  -- The ranks are one to one with the labels they are the ranks of.
  have hrank : usedLabels n (ofLabels labels).labelAt =
      (usedLabels n (labels.getD · 0)).image (Ranking.ofList labels.toList).rank := by
    rw [usedLabels, usedLabels, Finset.image_image]
    refine Finset.image_congr fun v hv => ?_
    exact labelAt_ofLabels (by simpa [hsize] using hv)
  rw [← Finset.card_range (ofLabels labels).count, hcount, hrank, Finset.card_image_of_injOn]
  intro x hx y hy hxy
  obtain ⟨u, hu, rfl⟩ := mem_usedLabels.1 hx
  obtain ⟨v, hv, rfl⟩ := mem_usedLabels.1 hy
  rw [← labelAt_ofLabels (hsize ▸ hu), ← labelAt_ofLabels (hsize ▸ hv)] at hxy
  exact (labelAt_ofLabels_inj (hsize ▸ hu) (hsize ▸ hv)).1 hxy

namespace Roster

/-! ## The count -/

variable {W : Type} {r r' : Roster W} {n v c : Nat}

theorem Indexes.countP_members (h : r.Indexes n) :
    r.members.countP (!·.isEmpty) = (usedLabels n r.communityAt).card := by
  have hlist : r.members.toList =
      (List.range r.capacity).map fun c => (List.range n).filter (r.communityAt · = c) := by
    rw [toList_members]
    exact List.map_congr_left fun c hc => h.membersOf_eq (List.mem_range.1 hc)
  have hused : usedLabels n r.communityAt =
      {c ∈ Finset.range r.capacity | ∃ u < n, r.communityAt u = c} := by
    ext c
    rw [mem_usedLabels, Finset.mem_filter, Finset.mem_range]
    exact ⟨fun ⟨u, hu, hc⟩ => ⟨hc ▸ h.communityAt_lt u hu, u, hu, hc⟩, And.right⟩
  have hcard : ({c ∈ Finset.range r.capacity | ∃ u < n, r.communityAt u = c} : Finset Nat).card =
      (List.range r.capacity).countP fun c => ∃ u < n, r.communityAt u = c := by
    rw [List.countP_eq_length_filter]
    rfl
  rw [hused, hcard, ← Array.countP_toList, hlist, List.countP_map]
  refine List.countP_congr fun c _ => ?_
  simp

/-- The communities without members are those that no node is in; a number that is no id is none of
them. -/
theorem Indexes.membersOf_eq_nil_iff_notMem (h : r.Indexes n) (c : Nat) :
    r.membersOf c = [] ↔ c ∉ usedLabels n r.communityAt := by
  rw [mem_usedLabels]
  by_cases hc : c < r.capacity
  · exact h.membersOf_eq_nil_iff hc
  · refine iff_of_true ?_ fun ⟨u, hu, huc⟩ => hc (huc ▸ h.communityAt_lt u hu)
    rw [membersOf, Array.getD_eq_getD_getElem?, Array.getElem?_eq_none (Nat.not_lt.1 hc)]
    rfl

/-- The partition of a roster tells the same nodes apart. -/
theorem Indexes.labelAt_toPartition_inj {u : Nat} (h : r.Indexes n) (hu : u < n) (hv : v < n) :
    r.toPartition.labelAt u = r.toPartition.labelAt v ↔ r.communityAt u = r.communityAt v :=
  Partition.labelAt_ofLabels_inj (h.size_eq.symm ▸ hu) (h.size_eq.symm ▸ hv)

theorem toPartition_singletons (d : Degrees W) :
    (singletons d).toPartition = .singletons d.byNode.size :=
  Partition.ofLabels_of_dense fun _ => Array.mem_range

/-- The count of a roster is that of the communities with members. -/
def Counts (r : Roster W) (n : Nat) : Prop := r.occupied = (usedLabels n r.communityAt).card

variable [Weight W]

theorem Moves.counts {d : W} (h : r.Indexes n) (hv : v < n) (hmove : r.Moves n v c d r')
    (hne : r.communityAt v ≠ c) (hcounts : r.Counts n) : r'.Counts n := by
  have hold := card_usedLabels (f := r.communityAt) hv
  have hnew := card_usedLabels_update (f := r.communityAt) (c := c) hv
  have hshared : r.communityAt v ∈ otherLabels n r.communityAt v ↔
      ∃ u < n, u ≠ v ∧ r.communityAt u = r.communityAt v := mem_otherLabels
  have hopen : c ∈ otherLabels n r.communityAt v ↔ ∃ u < n, r.communityAt u = c := by
    rw [mem_otherLabels]
    refine exists_congr fun u => and_congr_right fun _ => and_iff_right_of_imp fun hu huv => ?_
    exact hne (huv ▸ hu)
  rw [Counts] at hcounts ⊢
  rw [hmove.communityAt_eq h hv, hnew, hmove.occupied_eq, hcounts, hold]
  simp only [hshared, hopen]
  split <;> split <;> omega

/-- The count of a roster after a move, without a subtraction: the origin counts no longer if it has
lost its last member, the target counts if it had none. -/
theorem Moves.occupied_add {d : W} (h : r.Indexes n) (hv : v < n) (hmove : r.Moves n v c d r')
    (hne : r.communityAt v ≠ c) (hcounts : r.Counts n) :
    r'.occupied + (if r'.membersOf (r.communityAt v) = [] then 1 else 0) =
      r.occupied + if r.membersOf c = [] then 1 else 0 := by
  have hold := card_usedLabels (f := r.communityAt) hv
  have hnew := card_usedLabels_update (f := r.communityAt) (c := c) hv
  have horigin : r'.membersOf (r.communityAt v) = [] ↔
      r.communityAt v ∉ otherLabels n r.communityAt v := by
    rw [hmove.indexes.membersOf_eq_nil_iff_notMem, hmove.communityAt_eq h hv,
      usedLabels_eq_insert hv, Function.update_self, otherLabels_update, Finset.mem_insert, not_or,
      and_iff_right hne]
  have htarget : r.membersOf c = [] ↔ c ∉ otherLabels n r.communityAt v := by
    rw [h.membersOf_eq_nil_iff_notMem, usedLabels_eq_insert hv, Finset.mem_insert, not_or,
      and_iff_right hne.symm]
  have hcounts' := hmove.counts h hv hne hcounts
  rw [Counts, hold] at hcounts
  rw [Counts, hmove.communityAt_eq h hv, hnew] at hcounts'
  simp only [horigin, htarget, hcounts, hcounts', ite_not]
  omega

end Roster

end Communities
