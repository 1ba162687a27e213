import Communities.Proofs.Network.Aggregate
import Communities.Proofs.Network.Spanning

/-!
# What condensing keeps

Condensing loses nothing that can be said of a class as a whole. Populations, degrees and the
weights of the edges are added up, class by class and pair by pair; an edge within a class becomes
part of a loop. So the totals stay, and a partition of the classes has the modularity of the
partition of the nodes that it stands for.

* `Network.weightAcross`: the weight of the edges between two classes.
* `Network.Aggregates.mem_edges_iff`, `Network.Aggregates.degreeAt_eq` and
  `Network.Aggregates.quality_eq`: the edges, degrees and scores after nodes are drawn together.
* `Network.Condenses`: what a network says of the one it was condensed from;
  `Network.condense_conserves`: every condensed network does say so.
-/

namespace Communities

instance {W : Type} (e : Edge W) (u v : Nat) : Decidable (e.Joins u v) :=
  inferInstanceAs (Decidable (_ ∨ _))

/-- The partition of nodes that a partition `d` of their classes comes to. -/
def Partition.into (p d : Partition) : Partition := ⟨p.labels.map d.labelAt, d.count⟩

namespace Partition

variable {p d : Partition} {n v : Nat}

theorem Spans.labelAt_into (hp : p.Spans n) (hv : v < n) :
    (p.into d).labelAt v = d.labelAt (p.labelAt v) := by
  have hv' : v < p.labels.size := Nat.lt_of_lt_of_le hv hp.le_size
  simp [into, labelAt, hv']

theorem Spans.into (hp : p.Spans n) (hd : d.Spans p.count) : (p.into d).Spans n where
  le_size := by simpa [Partition.into] using hp.le_size
  labelAt_lt v hv := by
    rw [hp.labelAt_into hv]
    exact hd.labelAt_lt _ (hp.labelAt_lt v hv)

theorem Covers.into (hp : p.Covers n) (hd : d.Covers p.count) : (p.into d).Covers n :=
  ⟨by rw [Partition.into, Array.size_map, hp.size_eq], (hp.spans.into hd.spans).labelAt_lt⟩

end Partition

/-- A partition with too many labels for a table cannot be scored. -/
theorem modularity_of_table {W : Type} [Weight W] {net : Network W} {p : Partition}
    (h : ¬8 * p.count < tableBytes) : modularity net p = .error .tableTooLarge := by
  rw [modularity, blankWeights, blankTable, if_neg h]
  rfl

namespace Network

theorem population_eq_ok {W : Type} [Weight W] {net : Network W} {v : Nat} (hv : v < net.size) :
    net.population v = .ok (net.populationAt v) := by
  have hv' : v < net.nodes.size := hv
  rw [population, fetch_of_lt hv', ok_bind]
  simp [populationAt, populations, hv']

variable {K : Type} [Field K] [LinearOrder K] {net top : Network K} {labels : Array Nat}
  {f : Nat → Nat} {p d : Partition}

/-- The weight of the edges between two communities or, if these are the same, within one. -/
def weightAcross (net : Network K) (labels : Array Nat) (c c' : Nat) : K :=
  ((net.edges.filter fun e => (e.mapEnds (labels.getD · 0)).Joins c c').map (·.weight)).sum

/-! ## Totals as sums -/

omit [LinearOrder K] in
theorem edgeSum_ite (es : List (Edge K)) (p : Nat → Nat → Prop) [∀ u v, Decidable (p u v)] :
    edgeSum es (fun u v => if p u v then 1 else 0) =
      ((es.filter fun e => p e.source e.target).map (·.weight)).sum := by
  induction es with
  | nil => rfl
  | cons e es ih =>
    rw [edgeSum_cons, ih, List.filter_cons]
    by_cases h : p e.source e.target <;> simp [h]

theorem totalWeight_eq_edgeSum (net : Network K) :
    net.totalWeight = edgeSum net.edges fun _ _ => 1 := by
  rw [totalWeight, Weight.sum_eq, edgeSum]
  simp only [mul_one]

theorem totalPopulation_eq_sum (net : Network K) :
    net.totalPopulation = ∑ v ∈ Finset.range net.size, net.populationAt v := by
  have hsize : net.populations.size = net.size := Array.size_map
  have hlist : net.nodes.toList.map (·.population) = net.populations.toList :=
    Array.toList_map.symm
  rw [totalPopulation, Weight.sum_eq, hlist, toList_eq_map_getD net.populations 0, hsize,
    ← sum_map_range]
  rfl

/-! ## Drawing nodes together -/

namespace Aggregates

theorem mem_edges_iff (h : net.Aggregates f top) {e : Edge K} : e ∈ top.edges ↔
    e.source ≤ e.target ∧ (∃ e' ∈ net.edges, (e'.mapEnds f).Joins e.source e.target) ∧
      e.weight = ((net.edges.filter fun e' =>
        (e'.mapEnds f).Joins e.source e.target).map (·.weight)).sum := by
  have hsymm : ∀ a b, (if a = e.source ∧ b = e.target ∨ a = e.target ∧ b = e.source then (1 : K)
      else 0) = if b = e.source ∧ a = e.target ∨ b = e.target ∧ a = e.source then 1 else 0 :=
    fun a b => if_congr (by tauto) rfl rfl
  rw [h.canonical.ascending.mem_iff, h.joins, weightBetween, h.edgeSum_eq _ hsymm, edgeSum_ite]
  rfl

theorem weight_eq (h : net.Aggregates (labels.getD · 0) top) {e : Edge K} (he : e ∈ top.edges) :
    e.weight = net.weightAcross labels e.source e.target :=
  (h.mem_edges_iff.1 he).2.2

theorem totalWeight_eq (h : net.Aggregates f top) : top.totalWeight = net.totalWeight := by
  rw [totalWeight_eq_edgeSum, totalWeight_eq_edgeSum]
  exact h.edgeSum_eq _ fun _ _ => rfl

theorem total_eq (hnet : net.Canonical) (h : net.Aggregates f top) :
    top.degrees.total = net.degrees.total := by
  rw [h.canonical.total_eq, hnet.total_eq, volume_eq, volume_eq, ← totalWeight_eq_edgeSum,
    ← totalWeight_eq_edgeSum, h.totalWeight_eq]

/-- The edge ends at a node are those at the nodes that were drawn into it. -/
theorem degreeAt_eq (hnet : net.Canonical) (h : net.Aggregates f top) {c : Nat}
    (hc : c < top.size) : top.degrees.degreeAt c =
      ∑ v ∈ Finset.range net.size with f v = c, net.degrees.degreeAt v := by
  have hends : nodeEnds top.edges c = classEnds net.edges f c :=
    h.edgeSum_eq (fun u v => (if u = c then 1 else 0) + if v = c then 1 else 0)
      fun _ _ => add_comm _ _
  rw [h.canonical.degreeAt_eq hc, hends, ← classEnds_eq_sum hnet.endsBelow]
  refine Finset.sum_congr rfl fun v hv => ?_
  rw [hnet.degreeAt_eq (Finset.mem_range.1 (Finset.mem_filter.1 hv).1)]

theorem totalPopulation_eq (h : net.Aggregates f top) :
    top.totalPopulation = net.totalPopulation := by
  have hmaps : ∀ v ∈ Finset.range net.size, f v ∈ Finset.range top.size := fun v hv =>
    Finset.mem_range.2 (h.lt_size v (Finset.mem_range.1 hv))
  rw [totalPopulation_eq_sum, totalPopulation_eq_sum, ← Finset.sum_fiberwise_of_maps_to hmaps]
  exact Finset.sum_congr rfl fun c hc => h.populationAt_eq c (Finset.mem_range.1 hc)

/-- Classes of what has been drawn together score like the nodes in them. -/
theorem quality_eq (h : net.Aggregates f top) (g : Nat → Nat) :
    quality top.edges g = quality net.edges fun v => g (f v) :=
  quality_of_edgeSum h.edgeSum_eq

end Aggregates

/-! ## Condensing -/

/-- What a network says of the one that it was condensed from. -/
structure Condenses (net : Network K) (p : Partition) (top : Network K) : Prop where
  /-- The nodes are the classes. -/
  size_eq : top.size = p.count
  /-- The population of a class is that of its nodes together. -/
  population_eq : ∀ c < p.count, top.population c =
    .ok (∑ v ∈ Finset.range net.size with p.labelAt v = c, net.populationAt v)
  /-- Two classes, or a class and itself, have an edge if any of their nodes do, and it weighs as
  much as all these edges together. -/
  mem_edges : ∀ c c' w, ⟨c, c', w⟩ ∈ top.edges ↔ c ≤ c' ∧
    (∃ e ∈ net.edges, (e.mapEnds p.labelAt).Joins c c') ∧ w = net.weightAcross p.labels c c'
  /-- The degree of a class is that of its nodes together. -/
  degree_eq : ∀ c < p.count, top.degrees.degree c =
    .ok (∑ v ∈ Finset.range net.size with p.labelAt v = c, net.degrees.degreeAt v)
  /-- No weight is lost. -/
  totalWeight_eq : top.totalWeight = net.totalWeight
  /-- No vertex is lost. -/
  totalPopulation_eq : top.totalPopulation = net.totalPopulation
  /-- The degrees add up to what they did. -/
  total_eq : top.degrees.total = net.degrees.total
  /-- A partition of the classes scores like that of their nodes. -/
  modularity_eq : ∀ d : Partition, d.Covers top.size →
    modularity top d = modularity net (p.into d) ∧
      (8 * d.count < tableBytes → ∃ q, modularity top d = .ok q)

theorem modularity_condense (hnet : net.Canonical) (hp : p.Covers net.size)
    (h : net.Aggregates p.labelAt top) (hsize : top.size = p.count) (hd : d.Covers top.size) :
    modularity top d = modularity net (p.into d) := by
  by_cases htable : 8 * d.count < tableBytes
  · have hinto : (p.into d).Covers net.size := hp.into (hsize ▸ hd)
    rw [modularity_eq_ok h.canonical hd htable, modularity_eq_ok hnet hinto htable, h.quality_eq]
    refine congrArg Except.ok (quality_congr hnet.endsBelow fun u hu v hv => ?_)
    rw [hp.spans.labelAt_into hu, hp.spans.labelAt_into hv]
  · rw [modularity_of_table htable, modularity_of_table (p := p.into d) htable]

/-- A network is condensed by every partition of its nodes whose labels fit 32-bit ids, and what
comes of it says of each class what its nodes say together. -/
theorem condense_conserves (hnet : net.Built) (hp : p.Covers net.size) :
    (p.count < idBound → ∃ top, net.condense p = .ok top) ∧
    ∀ top, net.condense p = .ok top → net.Condenses p top := by
  have hcanonical := hnet.canonical
  refine ⟨fun hcount => ?_, fun top htop => ?_⟩
  · obtain ⟨top, htop, -⟩ := condense_eq_ok hcanonical hp hcount
    exact ⟨top, htop⟩
  · obtain ⟨h, hsize⟩ := aggregates_of_covers hcanonical hp htop
    have hlt : ∀ c < p.count, c < top.size := fun c hc => hsize.symm ▸ hc
    exact {
      size_eq := hsize
      population_eq := fun c hc => by
        rw [population_eq_ok (hlt c hc), h.populationAt_eq c (hlt c hc)]
      mem_edges := fun _ _ _ => h.mem_edges_iff
      degree_eq := fun c hc => by
        rw [Degrees.degree_eq_ok (by simpa using hlt c hc), h.degreeAt_eq hcanonical (hlt c hc)]
      totalWeight_eq := h.totalWeight_eq
      totalPopulation_eq := h.totalPopulation_eq
      total_eq := h.total_eq hcanonical
      modularity_eq := fun d hd => ⟨modularity_condense hcanonical hp h hsize hd,
        fun htable => ⟨_, modularity_eq_ok h.canonical hd htable⟩⟩ }

/-- Three vertices in a row, the last of them with a loop. -/
def chain : Network ℚ :=
  ⟨#[⟨1, [⟨1, 1⟩]⟩, ⟨1, [⟨0, 1⟩, ⟨2, 1⟩]⟩, ⟨1, [⟨1, 1⟩, ⟨2, 2⟩]⟩], 3⟩

theorem built_chain : chain.Built :=
  @Built.ofEdges ℚ _ 3 [⟨1, 0, 1⟩, ⟨2, 2, 2⟩, ⟨1, 2, 1⟩] chain (by cbv)

/-- The ends of the chain drawn together, with labels to spare. -/
theorem condense_conserves_chain :
    (⟨#[0, 2, 0], 4⟩ : Partition).Covers chain.size ∧
    chain.condense ⟨#[0, 2, 0], 4⟩ =
      .ok ⟨#[⟨2, [⟨0, 2⟩, ⟨2, 2⟩]⟩, ⟨0, []⟩, ⟨1, [⟨0, 2⟩]⟩, ⟨0, []⟩], 2⟩ ∧
    chain.Condenses ⟨#[0, 2, 0], 4⟩
      ⟨#[⟨2, [⟨0, 2⟩, ⟨2, 2⟩]⟩, ⟨0, []⟩, ⟨1, [⟨0, 2⟩]⟩, ⟨0, []⟩], 2⟩ := by
  have hcovers : (⟨#[0, 2, 0], 4⟩ : Partition).Covers chain.size := ⟨rfl, by decide⟩
  have hcondense : chain.condense ⟨#[0, 2, 0], 4⟩ =
      .ok ⟨#[⟨2, [⟨0, 2⟩, ⟨2, 2⟩]⟩, ⟨0, []⟩, ⟨1, [⟨0, 2⟩]⟩, ⟨0, []⟩], 2⟩ := by
    cbv
  exact ⟨hcovers, hcondense, (condense_conserves built_chain hcovers).2 _ hcondense⟩

end Network

end Communities
