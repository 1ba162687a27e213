import Communities.Proofs.Network.Conserve

/-!
# What one move is worth

The gain of a move is a closed form in six numbers that can be read off around one node. In exact
arithmetic it is the modularity of the partition after the move less that before it, whatever the
signs of the weights, for every community that the node is not in: a neighbouring one or not, one
with members or without.

* `Network.linksInto` and `Network.degreeSum`: what a move is judged by, said of a partition.
* `Network.gain_eq_modularity_sub`: the gain is the change of modularity.
-/

namespace Communities

namespace Network

section Definitions

variable {W : Type} [Weight W]

/-- The weight of the links from `x` to the other members of class `c`. -/
def linksInto (net : Network W) (p : Partition) (x c : Nat) : W :=
  Weight.sum (((net.row x).filter fun link => link.target ≠ x ∧ p.labelAt link.target = c).map
    (·.weight))

/-- The degrees of the members of class `c` together. -/
def degreeSum (net : Network W) (p : Partition) (c : Nat) : W :=
  Weight.sum (((List.range net.size).filter (p.labelAt · = c)).map net.degrees.degreeAt)

end Definitions

variable {K : Type} [Field K] [LinearOrder K] {net : Network K} {p : Partition} {x c : Nat}

theorem linksInto_eq (hnet : net.Canonical) (hx : x < net.size) (c : Nat) :
    net.linksInto p x c = linkWeight net.edges p.labelAt x c := by
  rw [linksInto, Weight.sum_eq, sum_filter_row hnet hx]

theorem degreeSum_eq (hnet : net.Canonical) (c : Nat) :
    net.degreeSum p c = classEnds net.edges p.labelAt c := by
  rw [degreeSum, Weight.sum_eq, sum_map_filter_range net.size fun v => p.labelAt v = c,
    ← classEnds_eq_sum hnet.endsBelow]
  refine Finset.sum_congr rfl fun v hv => ?_
  rw [hnet.degreeAt_eq (Finset.mem_range.1 (Finset.mem_filter.1 hv).1)]

/-- A partition that has been scored had few enough labels for a table. -/
theorem modularity_eq_quality (hnet : net.Canonical) (hp : p.Covers net.size) {q : K}
    (hq : modularity net p = .ok q) : q = quality net.edges p.labelAt := by
  by_cases htable : 8 * p.count < tableBytes
  · rw [modularity_eq_ok hnet hp htable] at hq
    exact (Except.ok.inj hq).symm
  · rw [modularity_of_table htable] at hq
    cases hq

/-- In a network of positive weight the gain of a move to any other community is what the move
adds to the modularity, and both partitions have one if their labels are few enough for a table. -/
theorem gain_eq_modularity_sub (hnet : net.Built) (hm : 0 < net.degrees.total)
    (hp : p.Covers net.size) (hx : x < net.size) (hc : c ≠ p.labelAt x) :
    ∃ d, gain (net.degrees.degreeAt x) (net.linksInto p x (p.labelAt x))
        (net.degreeSum p (p.labelAt x)) (net.linksInto p x c) (net.degreeSum p c)
        net.degrees.total = .ok d ∧
      (∀ moved before after, p.set x c = .ok moved → modularity net p = .ok before →
        modularity net moved = .ok after → d = after - before) ∧
      (8 * p.count < tableBytes → 8 * (c + 1) < tableBytes → ∃ moved before after,
        p.set x c = .ok moved ∧ modularity net p = .ok before ∧
          modularity net moved = .ok after) := by
  have hcanonical := hnet.canonical
  refine ⟨_, if_pos hm, fun moved before after hmoved hbefore hafter => ?_, fun hcount hlabel => ?_⟩
  · have hvolume : volume net.edges ≠ 0 := hcanonical.total_eq ▸ ne_of_gt hm
    rw [modularity_eq_quality hcanonical hp hbefore,
      modularity_eq_quality hcanonical (hp.set hmoved) hafter, Partition.labelAt_set hmoved,
      quality_update hvolume hc.symm, linksInto_eq hcanonical hx, linksInto_eq hcanonical hx,
      degreeSum_eq hcanonical, degreeSum_eq hcanonical, hcanonical.degreeAt_eq hx,
      hcanonical.total_eq, Weight.two_eq (K := K)]
  · have hmoved : p.set x c =
        .ok ⟨p.labels.setIfInBounds x c, max p.count (c + 1)⟩ :=
      Partition.set_eq_ok_iff.2 ⟨hp.size_eq.symm ▸ hx, .inr (by
        simp only [tableBytes, countBound] at hlabel ⊢; omega), rfl⟩
    exact ⟨_, _, _, hmoved, modularity_eq_ok hcanonical hp hcount,
      modularity_eq_ok hcanonical (hp.set hmoved) (by dsimp only; omega)⟩

/-- The middle of the chain leaves its neighbour for a community of its own. -/
theorem gain_eq_modularity_sub_chain :
    0 < chain.degrees.total ∧ (⟨#[0, 0, 1], 2⟩ : Partition).Covers chain.size ∧
    1 < chain.size ∧ 2 ≠ (⟨#[0, 0, 1], 2⟩ : Partition).labelAt 1 ∧
    gain (2 : ℚ) 1 3 0 0 8 = .ok (-3 / 16) ∧
    ∃ before after, modularity chain ⟨#[0, 0, 1], 2⟩ = .ok before ∧
      modularity chain ⟨#[0, 2, 1], 3⟩ = .ok after ∧ -3 / 16 = after - before := by
  have hm : 0 < chain.degrees.total := by decide +kernel
  have hcovers : (⟨#[0, 0, 1], 2⟩ : Partition).Covers chain.size := ⟨rfl, by decide⟩
  have hx : 1 < chain.size := by decide
  have hne : 2 ≠ (⟨#[0, 0, 1], 2⟩ : Partition).labelAt 1 := by decide
  have hnumbers : gain (chain.degrees.degreeAt 1) (chain.linksInto ⟨#[0, 0, 1], 2⟩ 1 0)
      (chain.degreeSum ⟨#[0, 0, 1], 2⟩ 0) (chain.linksInto ⟨#[0, 0, 1], 2⟩ 1 2)
      (chain.degreeSum ⟨#[0, 0, 1], 2⟩ 2) chain.degrees.total = gain 2 1 3 0 0 8 := by
    decide +kernel
  have hgain : gain (2 : ℚ) 1 3 0 0 8 = .ok (-3 / 16) := by decide +kernel
  obtain ⟨d, hd, hexact, hscored⟩ := gain_eq_modularity_sub built_chain hm hcovers hx hne
  obtain ⟨moved, before, after, hmoved, hbefore, hafter⟩ := hscored (by decide) (by decide)
  have hd' : d = -3 / 16 := Except.ok.inj (hd.symm.trans (hnumbers.trans hgain))
  have hmoved' : moved = ⟨#[0, 2, 1], 3⟩ := Except.ok.inj hmoved.symm
  exact ⟨hm, hcovers, hx, hne, hgain, before, after, hbefore, hmoved' ▸ hafter,
    hd' ▸ hexact moved before after hmoved hbefore hafter⟩

end Network

end Communities
