import Communities.Proofs.Network.Conserve

/-!
# Condensing twice

Drawing the classes of a partition together, and then classes of these, comes to the same as drawing
the nodes together at once: not only in its totals, but row by row. What a first step made a loop is
a part of the same loop in the end, and edges that it merged stay together.

* `Network.aggregates_of_spans`: what condensing does, whatever else the partition has labels for.
* `Network.condense_composes`: two steps are one, and classes of one node are none.
-/

namespace Communities

namespace Network

theorem condense_of_count {W : Type} [Weight W] {net : Network W} {p : Partition}
    (h : ¬p.count < idBound) : net.condense p = .error .tooManyNodes := by
  rw [condense, if_neg h]

variable {K : Type} [Field K] [LinearOrder K] {net mid top : Network K} {p d : Partition}

theorem aggregates_of_spans (hnet : net.Canonical) (hp : p.Spans net.size)
    (h : net.condense p = .ok top) : net.Aggregates p.labelAt top ∧ top.size = p.count := by
  obtain ⟨q, hq, hagree⟩ := hp.exists_covers
  rw [condense_congr hnet hagree] at h
  obtain ⟨haggregates, hsize⟩ := aggregates_of_covers hnet hq h
  exact ⟨haggregates.congr hnet fun v hv => (hagree.labelAt_eq hv).symm,
    hsize.trans hagree.count_eq.symm⟩

private theorem condense_into (hnet : net.Canonical) (hp : p.Spans net.size)
    (hmid : net.condense p = .ok mid) (hd : d.Spans mid.size) :
    mid.condense d = net.condense (p.into d) := by
  have hcanonical := condense_canonical hmid
  obtain ⟨hfirst, hsize⟩ := aggregates_of_spans hnet hp hmid
  have hinto : (p.into d).Spans net.size := hp.into (hsize ▸ hd)
  by_cases hcount : d.count < idBound
  · obtain ⟨top, htop⟩ := exists_condense hcanonical hd hcount
    obtain ⟨top', htop'⟩ := exists_condense hnet hinto hcount
    obtain ⟨hsecond, hsecondSize⟩ := aggregates_of_spans hcanonical hd htop
    obtain ⟨honce, honceSize⟩ := aggregates_of_spans hnet hinto htop'
    have htwice : net.Aggregates (p.into d).labelAt top :=
      (hfirst.trans hsecond).congr hnet fun v hv => (hp.labelAt_into hv).symm
    rw [htop, htop', htwice.unique honce (hsecondSize.trans honceSize.symm)]
  · rw [condense_of_count hcount, condense_of_count (p := p.into d) hcount]

/-- To condense a network by a partition, and the result by a partition of the classes, is to
condense it once by the partition of the nodes that the two come to; classes of one node leave it as
it is. A partition condenses if its labels fit 32-bit ids. -/
theorem condense_composes (hnet : net.Built) :
    net.condense (.singletons net.size) = .ok net ∧
    ∀ p : Partition, p.Spans net.size →
      (p.count < idBound → ∃ mid, net.condense p = .ok mid) ∧
      ∀ mid, net.condense p = .ok mid → ∀ d : Partition, d.Spans mid.size →
        mid.condense d = net.condense (p.into d) ∧
        (d.count < idBound → ∃ top, mid.condense d = .ok top) := by
  have hcanonical := hnet.canonical
  refine ⟨condense_singletons hcanonical, fun p hp => ⟨exists_condense hcanonical hp, ?_⟩⟩
  intro mid hmid d hd
  exact ⟨condense_into hcanonical hp hmid hd, exists_condense (condense_canonical hmid) hd⟩

/-- The ends of the chain drawn together, with labels to spare, and then the classes renumbered. -/
theorem condense_composes_chain :
    chain.Built ∧ chain.condense (.singletons 3) = .ok chain ∧
    (⟨#[0, 2, 0], 4⟩ : Partition).Spans chain.size ∧
    (⟨#[1, 0, 0, 2], 3⟩ : Partition).Spans 4 ∧
    ∃ mid, chain.condense ⟨#[0, 2, 0], 4⟩ = .ok mid ∧
      mid.condense ⟨#[1, 0, 0, 2], 3⟩ = chain.condense ⟨#[1, 0, 1], 3⟩ ∧
      chain.condense ⟨#[1, 0, 1], 3⟩ =
        .ok ⟨#[⟨1, [⟨1, 2⟩]⟩, ⟨2, [⟨0, 2⟩, ⟨1, 2⟩]⟩, ⟨0, []⟩], 2⟩ := by
  have hp : (⟨#[0, 2, 0], 4⟩ : Partition).Spans chain.size := ⟨by decide, by decide⟩
  have hd : (⟨#[1, 0, 0, 2], 3⟩ : Partition).Spans 4 := ⟨by decide, by decide⟩
  obtain ⟨hsingletons, hcondense⟩ := condense_composes built_chain
  obtain ⟨hexists, hcompose⟩ := hcondense ⟨#[0, 2, 0], 4⟩ hp
  obtain ⟨mid, hmid⟩ := hexists (by decide)
  have hsize : mid.size = 4 := (aggregates_of_spans built_chain.canonical hp hmid).2
  have hinto : (⟨#[0, 2, 0], 4⟩ : Partition).into ⟨#[1, 0, 0, 2], 3⟩ = ⟨#[1, 0, 1], 3⟩ := by
    cbv
  have htwice := (hcompose mid hmid ⟨#[1, 0, 0, 2], 3⟩ (hsize ▸ hd)).1
  rw [hinto] at htwice
  exact ⟨built_chain, hsingletons, hp, hd, mid, hmid, htwice, by cbv⟩

end Network

end Communities
