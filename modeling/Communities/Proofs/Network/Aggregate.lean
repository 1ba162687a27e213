import Communities.Proofs.Network.Degrees

/-!
# Aggregation

In exact arithmetic a network is known by the populations of its nodes, by which of them are joined,
and by the sums over its edges that do not tell the two ends apart. What condensing does to these is
simple, so it does not matter in how many steps a network is drawn together.

* `Network.Aggregates`: one network is what becomes of another when nodes are drawn together;
  `Network.Aggregates.unique`: there is only one such network.
* `Network.aggregates_of_covers`: condensing does that, also where labels are left unused;
  `Network.condense_of_aggregates`: nothing else gives it.
* `Network.Aggregates.refl` and `Network.Aggregates.trans`: no step is one, two steps are one;
  `Network.condense_singletons`: classes of one node are no step.
-/

namespace Communities

/-! ## Edges told by their sums -/

namespace Edge

variable {W : Type} {e : Edge W} {u v : Nat}

/-- The edge has these two ends, in one order or the other. -/
def Joins (e : Edge W) (u v : Nat) : Prop :=
  e.source = u ∧ e.target = v ∨ e.source = v ∧ e.target = u

theorem joins_raise : e.raise.Joins u v ↔ e.Joins u v := by
  unfold raise Joins
  split
  · rfl
  · simp only
    tauto

theorem joins_mapEnds {f : Nat → Nat} :
    (e.mapEnds f).Joins u v ↔ ∃ a b, e.Joins a b ∧ f a = u ∧ f b = v := by
  simp only [Joins, mapEnds]
  constructor
  · rintro (⟨hs, ht⟩ | ⟨hs, ht⟩)
    · exact ⟨e.source, e.target, .inl ⟨rfl, rfl⟩, hs, ht⟩
    · exact ⟨e.target, e.source, .inr ⟨rfl, rfl⟩, ht, hs⟩
  · rintro ⟨a, b, ⟨rfl, rfl⟩ | ⟨rfl, rfl⟩, ha, hb⟩
    · exact .inl ⟨ha, hb⟩
    · exact .inr ⟨hb, ha⟩

/-- Edges between the same ends, each from its lower one. -/
theorem Joins.parallel {a b : Edge W} (h : a.Joins b.source b.target) (ha : a.source ≤ a.target)
    (hb : b.source ≤ b.target) : a.Parallel b := by
  unfold Joins at h
  unfold Parallel
  omega

end Edge

theorem joins_mergeParallel {W : Type} [Weight W] {es : List (Edge W)} {u v : Nat} :
    (∃ e ∈ mergeParallel es, e.Joins u v) ↔ ∃ e ∈ es, e.Joins u v := by
  have hends := ends_mergeParallel es
  simp only [Edge.Joins, and_or_left, exists_or, hends]
  simp only [← exists_or, ← and_or_left]
  exact exists_congr fun e => and_congr_right fun _ => Edge.joins_raise

section Sums

variable {K : Type} [Field K] {es es' : List (Edge K)} {e : Edge K}

/-- The weight of the edges between two ends. -/
def weightBetween (es : List (Edge K)) (u v : Nat) : K :=
  edgeSum es fun a b => if a = u ∧ b = v ∨ a = v ∧ b = u then 1 else 0

/-- Lists over which all sums agree that do not tell ends apart have the same weights. -/
theorem weightBetween_congr
    (h : ∀ φ : Nat → Nat → K, (∀ u v, φ u v = φ v u) → edgeSum es φ = edgeSum es' φ) (u v : Nat) :
    weightBetween es u v = weightBetween es' u v := by
  refine h _ fun a b => if_congr ?_ rfl rfl
  tauto

theorem Ascending.weightBetween_eq (h : Ascending es) (he : e ∈ es) :
    weightBetween es e.source e.target = e.weight := by
  obtain ⟨before, after, rfl⟩ := List.append_of_mem he
  have hpairwise := h.pairwise
  rw [List.pairwise_append, List.pairwise_cons] at hpairwise
  have hle := h.source_le e he
  have hzero : ∀ es : List (Edge K), (∀ a ∈ es, a.source ≤ a.target ∧ (a.Before e ∨ e.Before a)) →
      weightBetween es e.source e.target = 0 := by
    intro es hes
    rw [weightBetween, edgeSum_congr (ψ := fun _ _ => 0)]
    · simp [edgeSum]
    · intro a ha
      obtain ⟨hale, hbefore⟩ := hes a ha
      unfold Edge.Before at hbefore
      exact if_neg (by omega)
  have hleft := hzero before fun a ha =>
    ⟨h.source_le a (by simp [ha]), .inl (hpairwise.2.2 a ha e (by simp))⟩
  have hright := hzero after fun a ha =>
    ⟨h.source_le a (by simp [ha]), .inr (hpairwise.2.1.1 a ha)⟩
  rw [weightBetween] at hleft hright
  rw [weightBetween, edgeSum_append, edgeSum_cons, hleft, hright]
  simp

/-- An edge between two ends is the only one there, so it has all the weight. -/
theorem Ascending.mem_iff (h : Ascending es) : e ∈ es ↔ e.source ≤ e.target ∧
    (∃ e' ∈ es, e'.Joins e.source e.target) ∧
      e.weight = weightBetween es e.source e.target := by
  constructor
  · intro he
    exact ⟨h.source_le e he, ⟨e, he, .inl ⟨rfl, rfl⟩⟩, (h.weightBetween_eq he).symm⟩
  · rintro ⟨hle, ⟨e', he', hends⟩, hw⟩
    have hparallel := hends.parallel (h.source_le e' he') hle
    rw [← hparallel.1, ← hparallel.2, h.weightBetween_eq he'] at hw
    exact hparallel.eq hw.symm ▸ he'

/-- Ascending edges are known by which ends they join and how much weight is between them. -/
theorem Ascending.ext (h : Ascending es) (h' : Ascending es')
    (hjoins : ∀ u v, (∃ e ∈ es, e.Joins u v) ↔ ∃ e ∈ es', e.Joins u v)
    (hweight : ∀ u v, weightBetween es u v = weightBetween es' u v) : es = es' :=
  List.Pairwise.eq_of_mem_iff h.pairwise h'.pairwise fun e => by
    rw [h.mem_iff, h'.mem_iff, hjoins, hweight]

end Sums

namespace Network

theorem Canonical.ext {W : Type} {net net' : Network W} (h : net.Canonical) (h' : net'.Canonical)
    (hpopulations : net.populations = net'.populations) (hedges : net.edges = net'.edges) :
    net = net' := by
  rw [h.eq_linked, h'.eq_linked, hpopulations, hedges]

/-! ## Drawing nodes together -/

variable {K : Type} [Field K] [LinearOrder K] {fine mid coarse coarse' : Network K}
  {f g : Nat → Nat} {p : Partition}

/-- What becomes of a network when the nodes of which `f` says the same are drawn together. -/
structure Aggregates (fine : Network K) (f : Nat → Nat) (coarse : Network K) : Prop where
  /-- The result has its form. -/
  canonical : coarse.Canonical
  /-- Every node goes somewhere. -/
  lt_size : ∀ v < fine.size, f v < coarse.size
  /-- Two nodes are joined if some that were drawn into them are. -/
  joins : ∀ u v, (∃ e ∈ coarse.edges, e.Joins u v) ↔ ∃ e ∈ fine.edges, (e.mapEnds f).Joins u v
  /-- Sums over the edges stay, unless they tell apart what has been drawn together. -/
  edgeSum_eq : ∀ φ : Nat → Nat → K, (∀ u v, φ u v = φ v u) →
    edgeSum coarse.edges φ = edgeSum fine.edges fun u v => φ (f u) (f v)
  /-- The populations add up. -/
  populationAt_eq : ∀ c < coarse.size, coarse.populationAt c =
    ∑ v ∈ Finset.range fine.size with f v = c, fine.populationAt v

theorem Aggregates.refl (h : fine.Canonical) : fine.Aggregates (fun v => v) fine where
  canonical := h
  lt_size _ hv := hv
  joins _ _ := Iff.rfl
  edgeSum_eq _ _ := rfl
  populationAt_eq c hc := by
    rw [Finset.sum_filter, Finset.sum_ite_eq', if_pos (Finset.mem_range.2 hc)]

theorem Aggregates.trans (h : fine.Aggregates f mid) (h' : mid.Aggregates g coarse) :
    fine.Aggregates (fun v => g (f v)) coarse where
  canonical := h'.canonical
  lt_size v hv := h'.lt_size _ (h.lt_size v hv)
  joins u v := by
    have hmid : (∃ e ∈ mid.edges, (e.mapEnds g).Joins u v) ↔
        ∃ a b, (∃ e ∈ fine.edges, (e.mapEnds f).Joins a b) ∧ g a = u ∧ g b = v := by
      simp only [← h.joins, Edge.joins_mapEnds (f := g)]
      exact ⟨fun ⟨e, he, a, b, hab, hu⟩ => ⟨a, b, ⟨e, he, hab⟩, hu⟩,
        fun ⟨a, b, ⟨e, he, hab⟩, hu⟩ => ⟨e, he, a, b, hab, hu⟩⟩
    rw [h'.joins, hmid]
    have hcompose : ∀ e : Edge K, (e.mapEnds fun v => g (f v)) = (e.mapEnds f).mapEnds g :=
      fun _ => rfl
    simp only [hcompose, Edge.joins_mapEnds (f := g)]
    exact ⟨fun ⟨a, b, ⟨e, he, hab⟩, hu⟩ => ⟨e, he, a, b, hab, hu⟩,
      fun ⟨e, he, a, b, hab, hu⟩ => ⟨a, b, ⟨e, he, hab⟩, hu⟩⟩
  edgeSum_eq φ hφ := by
    rw [h'.edgeSum_eq φ hφ, h.edgeSum_eq (fun u v => φ (g u) (g v)) fun u v => hφ _ _]
  populationAt_eq c hc := by
    rw [h'.populationAt_eq c hc]
    have hmaps : ∀ v ∈ {v ∈ Finset.range fine.size | g (f v) = c},
        f v ∈ {a ∈ Finset.range mid.size | g a = c} := fun v hv => by
      rw [Finset.mem_filter, Finset.mem_range] at hv ⊢
      exact ⟨h.lt_size v hv.1, hv.2⟩
    rw [← Finset.sum_fiberwise_of_maps_to hmaps]
    refine Finset.sum_congr rfl fun a ha => ?_
    rw [Finset.mem_filter, Finset.mem_range] at ha
    rw [h.populationAt_eq a ha.1, Finset.filter_filter]
    refine Finset.sum_congr (Finset.filter_congr fun v _ => ?_) fun _ _ => rfl
    exact ⟨fun hv => ⟨by rw [hv]; exact ha.2, hv⟩, And.right⟩

theorem Aggregates.congr (hnet : fine.Canonical) (hfg : ∀ v < fine.size, f v = g v)
    (h : fine.Aggregates f coarse) : fine.Aggregates g coarse where
  canonical := h.canonical
  lt_size v hv := hfg v hv ▸ h.lt_size v hv
  joins u v := by
    rw [h.joins]
    refine exists_congr fun e => and_congr_right fun he => ?_
    obtain ⟨hs, ht⟩ := hnet.endsBelow e he
    rw [Edge.Joins, Edge.Joins, Edge.mapEnds, Edge.mapEnds, hfg _ hs, hfg _ ht]
  edgeSum_eq φ hφ := by
    rw [h.edgeSum_eq φ hφ]
    refine edgeSum_congr fun e he => ?_
    obtain ⟨hs, ht⟩ := hnet.endsBelow e he
    rw [hfg _ hs, hfg _ ht]
  populationAt_eq c hc := by
    rw [h.populationAt_eq c hc]
    refine Finset.sum_congr (Finset.filter_congr fun v hv => ?_) fun _ _ => rfl
    rw [hfg v (Finset.mem_range.1 hv)]

theorem Aggregates.unique (h : fine.Aggregates f coarse) (h' : fine.Aggregates f coarse')
    (hsize : coarse.size = coarse'.size) : coarse = coarse' := by
  refine h.canonical.ext h'.canonical ?_ ?_
  · have hsizes : ∀ net : Network K, net.populations.size = net.size := fun net => by
      simp [populations, size]
    refine Array.ext (by rw [hsizes, hsizes, hsize]) fun c hc hc' => ?_
    have hpopulation : coarse.populationAt c = coarse'.populationAt c := by
      rw [h.populationAt_eq c (hsizes coarse ▸ hc), h'.populationAt_eq c (hsizes coarse' ▸ hc')]
    simpa [populationAt, Array.getD, hc, hc'] using hpopulation
  · exact h.canonical.ascending.ext h'.canonical.ascending
      (fun u v => (h.joins u v).trans (h'.joins u v).symm)
      (weightBetween_congr fun φ hφ => (h.edgeSum_eq φ hφ).trans (h'.edgeSum_eq φ hφ).symm)

theorem aggregates_of_covers (hnet : fine.Canonical) (hp : p.Covers fine.size)
    (h : fine.condense p = .ok coarse) : fine.Aggregates p.labelAt coarse ∧ coarse.size = p.count := by
  obtain ⟨coarse', h', hcanonical, hsize, hedges⟩ := condense_eq_ok hnet hp (count_lt_of_condense h)
  rw [h'] at h
  cases h
  refine ⟨⟨hcanonical, fun v hv => hsize.symm ▸ hp.labelAt_lt v hv, fun u v => ?_,
    fun φ hφ => edgeSum_condense hedges hφ, fun c hc => ?_⟩, hsize⟩
  · rw [hedges, joins_mergeParallel]
    simp
  · rw [populationAt_condense hp h' (hsize ▸ hc), Weight.sum_eq, sum_map_filter_range]

theorem aggregates_of_condense (hnet : fine.Canonical) (hp : p.Fits fine.size)
    (h : fine.condense p = .ok coarse) :
    fine.Aggregates p.labelAt coarse ∧ coarse.size = p.count :=
  aggregates_of_covers hnet hp.toCovers h

theorem condense_of_aggregates (hnet : fine.Canonical) (hp : p.Fits fine.size)
    (h : fine.Aggregates p.labelAt coarse) (hsize : coarse.size = p.count) :
    fine.condense p = .ok coarse := by
  obtain ⟨coarse', hcondense, -, hsize', -⟩ := hnet.condense_eq_ok_of_fits hp
  obtain ⟨h', -⟩ := aggregates_of_condense hnet hp hcondense
  rw [hcondense, h'.unique h (hsize'.trans hsize.symm)]

/-- Classes of one node draw nothing together. -/
theorem condense_singletons (hnet : fine.Canonical) :
    fine.condense (.singletons fine.size) = .ok fine :=
  condense_of_aggregates hnet (Partition.fits_singletons _)
    ((Aggregates.refl hnet).congr hnet fun _ hv => (Partition.labelAt_singletons hv).symm) rfl

/-- Drawing together never loses all edges. -/
theorem Aggregates.edgeCount_ne_zero (hnet : fine.Canonical) (h : fine.Aggregates f coarse)
    (hedges : fine.edgeCount ≠ 0) : coarse.edgeCount ≠ 0 := by
  rw [hnet.edgeCount_eq] at hedges
  rw [h.canonical.edgeCount_eq]
  obtain ⟨e, he⟩ := List.exists_mem_of_length_pos (Nat.pos_of_ne_zero hedges)
  obtain ⟨e', he', -⟩ := (h.joins _ _).2 ⟨e, he, .inl ⟨rfl, rfl⟩⟩
  exact Nat.ne_of_gt (List.length_pos_of_mem he')

end Network

end Communities
