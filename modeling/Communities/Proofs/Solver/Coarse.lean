import Communities.Proofs.Network.Conserve
import Communities.Proofs.Solver.Leads

/-!
# The network of the last communities

A hierarchy comes with the network of its last communities. It was drawn together level by level,
but in exact arithmetic it is the one that the final partition draws together from the vertices in
one step, so what it says can be read off the vertices: how many of them are in a community, and how
much weight runs between two communities.

* `Network.SumsUp`: what such a network says of the vertices; `Network.Aggregates.sumsUp`: every
  network that is drawn together from single vertices says so.
* `Solver.cluster_coarse`: the network of every hierarchy does.
-/

namespace Communities

/-! ## What a drawn network says -/

namespace Network

variable {K : Type} [Field K] [LinearOrder K] {net top : Network K} {labels : Array Nat}

/-- `top` is what the vertices come to, community by community. -/
structure SumsUp (net : Network K) (labels : Array Nat) (top : Network K) : Prop where
  /-- The nodes are the labels. -/
  mem_labels : ∀ c, c ∈ labels ↔ c < top.size
  /-- The population is the number of vertices with the label. -/
  population_eq : ∀ c < top.size, top.population c = .ok (labels.toList.count c : K)
  /-- Two communities are joined if any of their vertices are. -/
  joins : ∀ c c', (∃ e ∈ top.edges, e.Joins c c') ↔
    ∃ e ∈ net.edges, (e.mapEnds (labels.getD · 0)).Joins c c'
  /-- The weight is that of all edges between them. -/
  weight_eq : ∀ e ∈ top.edges, e.weight = net.weightAcross labels e.source e.target
  /-- No weight is lost. -/
  totalWeight_eq : top.totalWeight = net.totalWeight
  /-- The degrees add up to what they did. -/
  total_eq : top.degrees.total = net.degrees.total

theorem Aggregates.sumsUp (hnet : net.Canonical) (hone : ∀ v < net.size, net.populationAt v = 1)
    (hsize : labels.size = net.size) (hmem : ∀ c, c ∈ labels ↔ c < top.size)
    (h : net.Aggregates (labels.getD · 0) top) : net.SumsUp labels top := by
  refine ⟨hmem, fun c hc => ?_, h.joins, fun e he => h.weight_eq he, h.totalWeight_eq,
    h.total_eq hnet⟩
  have hcount : labels.toList.count c =
      (Finset.filter (fun v => labels.getD v 0 = c) (Finset.range net.size)).card := by
    have hlist : labels.toList = (List.range net.size).map (labels.getD · 0) := by
      rw [← hsize, ← toList_eq_map_getD]
    rw [hlist, List.count, List.countP_map, List.countP_eq_length_filter]
    simp only [Function.comp_def, beq_eq_decide]
    rfl
  rw [population_eq_ok hc, h.populationAt_eq c hc, Finset.sum_congr rfl fun v hv =>
    hone v (Finset.mem_range.1 (Finset.mem_filter.1 hv).1), Finset.sum_const, nsmul_one, hcount]

end Network

/-! ## Every hierarchy -/

namespace Solver

variable {K : Type} [Field K] [LinearOrder K] [IsStrictOrderedRing K]

/-- The network that a hierarchy over single vertices comes with is the one that its final partition
draws together from them. -/
theorem cluster_coarse {n : Nat} {es : List (Edge K)} {net : Network K}
    (hnet : Network.ofEdges n es = .ok net) {s s' : Solver K} {budget : Nat}
    {seed : Option (Array Nat)} {run : Run K} (hrun : s.cluster budget net seed = .ok (run, s'))
    {h : Hierarchy K} (hh : run.result = .ok h) {top : Network K} (htop : h.coarse = some top) :
    ∃ final, h.finalPartition = .ok final ∧ net.condense (.ofLabels final) = .ok top ∧
      net.SumsUp final top := by
  obtain ⟨haccepted, hanswers⟩ := cluster_spec hrun hh
  have hcanonical := Network.ofEdges_canonical hnet
  cases hanswers with
  | edgeless => cases htop
  | @climbed base labels levels pulled coarse start ascent back =>
    cases htop
    obtain ⟨final, hends⟩ := start.endsAt hcanonical haccepted.seed_ok ascent back
    have hdrawn := hends.condense_eq
    obtain ⟨haggregates, -⟩ := Network.aggregates_of_condense hcanonical
      (Partition.fits_ofLabels hends.size_eq) hdrawn
    rw [Partition.ofLabels_of_dense hends.mem_labels] at haggregates
    exact ⟨final, hends.partition_eq, hdrawn,
      haggregates.sumsUp hcanonical (fun _ hv => Network.populationAt_ofEdges hnet hv) hends.size_eq
        hends.mem_labels⟩

theorem cluster_coarse_chain :
    Network.ofEdges 3 [⟨1, 0, 1⟩, ⟨2, 2, 2⟩, ⟨1, 2, 1⟩] = .ok Network.chain ∧
    ∃ run s' h, (ofSettings ⟨1 / 10, .multilevel none, .ascending, none, false⟩ :
          Solver ℚ).cluster 3 Network.chain (some #[9, 7, 4]) = .ok (run, s') ∧
      run.result = .ok h ∧
      h.coarse = some ⟨#[⟨1, [⟨0, 2⟩, ⟨1, 1⟩]⟩, ⟨2, [⟨0, 1⟩, ⟨1, 1⟩]⟩], 3⟩ ∧
      ∃ final, h.finalPartition = .ok final ∧
        Network.chain.condense (.ofLabels final) =
          .ok ⟨#[⟨1, [⟨0, 2⟩, ⟨1, 1⟩]⟩, ⟨2, [⟨0, 1⟩, ⟨1, 1⟩]⟩], 3⟩ ∧
        Network.chain.SumsUp final ⟨#[⟨1, [⟨0, 2⟩, ⟨1, 1⟩]⟩, ⟨2, [⟨0, 1⟩, ⟨1, 1⟩]⟩], 3⟩ := by
  have hchain : Network.ofEdges 3 [⟨1, 0, 1⟩, ⟨2, 2, 2⟩, ⟨1, 2, 1⟩] = .ok Network.chain := by cbv
  have hcoarse : ((ofSettings ⟨1 / 10, .multilevel none, .ascending, none, false⟩ :
      Solver ℚ).cluster 3 Network.chain (some #[9, 7, 4])).toOption.bind
        (fun x => x.1.result.toOption.map (·.coarse)) =
      some (some ⟨#[⟨1, [⟨0, 2⟩, ⟨1, 1⟩]⟩, ⟨2, [⟨0, 1⟩, ⟨1, 1⟩]⟩], 3⟩) := by
    rw [Weight.ofField_rat]
    cbv
  obtain ⟨run, s', h, hrun, hh, htop⟩ := exists_answer hcoarse
  exact ⟨hchain, run, s', h, hrun, hh, htop, cluster_coarse hchain hrun hh htop⟩

end Solver

end Communities
