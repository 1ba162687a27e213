import Communities.Proofs.Network.SameEdges
import Communities.Proofs.Solver.Ascent
import Communities.Proofs.SourceGraph

/-!
# The presentation of a graph

A graph comes as a sequence of visited edges, which a solver weighs, checks and merges before it
starts. A run on a network checks the weights again, then of the merged edges. In exact arithmetic
nothing of this shows in the answer: it is the one for the weighted graph, however that was
presented.

* `Solver.run_eq_cluster`: the run on a graph is the run on its network, if the two checks of the
  weights agree.
* `Solver.run_presentation`: graphs with the same weighted edges have the same runs.
-/

namespace Communities

namespace Solver

open SourceGraph

section Any

variable {V W : Type} [Weight W] {s : Solver W} {budget : Nat} {g : SourceGraph V}
  {weight : Option (V → W)} {net : Network W}

theorem run_eq_cluster (hdirected : g.directed = false) (hcount : g.nodeCount < idBound)
    (hends : ∀ e ∈ g.weighed weight, e.source < g.nodeCount ∧ e.target < g.nodeCount)
    (hnet : Network.ofEdges g.nodeCount (g.weighed weight) = .ok net)
    (hchecks : checkEdges (g.weighed weight) = checkEdges net.edges) (seed : Option (Array Nat)) :
    s.run budget g weight seed = s.cluster budget net seed := by
  have hsize := Network.size_ofEdges hnet
  rw [run, if_neg (by simp [hdirected]), toNetwork_eq_ok hcount hends hnet]
  -- The checks are the same ones in the same order, those of the settings and the seed made twice.
  cases hsettings : s.settings.check with
  | error e =>
    rw [cluster_of_refused (by rw [hsettings]; rfl)]
    rfl
  | ok =>
    cases hseed : checkSeed (W := W) g.nodeCount seed with
    | error e =>
      rw [cluster_of_refused (by rw [hsettings, hsize, hseed]; rfl)]
      rfl
    | ok =>
      cases hedges : checkEdges (g.weighed weight) with
      | error e =>
        rw [cluster_of_refused (by rw [hsettings, hsize, hseed, ← hchecks, hedges]; rfl)]
        rfl
      | ok => rfl

end Any

section Exact

variable {V V' K : Type} [Field K] [LinearOrder K] [IsStrictOrderedRing K] {g : SourceGraph V}
  {g' : SourceGraph V'} {weight : Option (V → K)} {weight' : Option (V' → K)}

theorem run_of_sound (hg : g.Sound weight) : ∃ net,
    Network.ofEdges g.nodeCount (g.weighed weight) = .ok net ∧
      ∀ (s : Solver K) (budget : Nat) (seed : Option (Array Nat)),
        s.run budget g weight seed = s.cluster budget net seed := by
  obtain ⟨net, hnet, -⟩ := Network.exists_ofEdges hg.nodeCount_lt hg.endsBelow
  have hweights : ∀ e ∈ net.edges, 0 ≤ e.weight := by
    rw [Network.edges_ofEdges hnet]
    exact nonneg_mergeParallel hg.nonneg
  have hchecks : checkEdges (g.weighed weight) = checkEdges net.edges :=
    (checkEdges_of_nonneg hg.nonneg).trans (checkEdges_of_nonneg hweights).symm
  exact ⟨net, hnet, fun s budget =>
    run_eq_cluster hg.undirected hg.nodeCount_lt hg.endsBelow hnet hchecks⟩

omit [IsStrictOrderedRing K] in
theorem run_toSource {n : Nat} {es : List (Edge K)} {net : Network K}
    (hnet : Network.ofEdges n es = .ok net) (s : Solver K) (budget : Nat)
    (seed : Option (Array Nat)) :
    s.run budget net.toSource (some id) seed = s.cluster budget net seed := by
  have hcanonical := Network.ofEdges_canonical hnet
  have hweighed := weighed_toSource net
  refine run_eq_cluster rfl hcanonical.size_lt ?_ ?_ ?_ seed
  · exact hweighed.symm ▸ hcanonical.endsBelow
  · exact hweighed.symm ▸ Network.ofEdges_edges hnet
  · rw [hweighed]

/-- A run on a graph gives the same for every graph that presents the same weighted edges, and so
does a run on the network built from them. A network presents itself, whatever its weights. -/
theorem run_presentation (hg : g.Sound weight) (hg' : g'.Sound weight')
    (hcount : g.nodeCount = g'.nodeCount)
    (hsame : SameEdges (g.weighed weight) (g'.weighed weight')) (s : Solver K) (budget : Nat)
    (seed : Option (Array Nat)) :
    s.run budget g weight seed = s.run budget g' weight' seed ∧
    (∃ net, Network.ofEdges g.nodeCount (g.weighed weight) = .ok net ∧
      s.run budget g weight seed = s.cluster budget net seed) ∧
    ∀ (n : Nat) (es : List (Edge K)) (net : Network K), Network.ofEdges n es = .ok net →
      s.run budget net.toSource (some id) seed = s.cluster budget net seed := by
  obtain ⟨net, hnet, hrun⟩ := run_of_sound hg
  obtain ⟨net', hnet', hrun'⟩ := run_of_sound hg'
  have hnets : net = net' := by
    rw [Network.ofEdges_congr hsame, hcount, hnet'] at hnet
    exact (Except.ok.inj hnet).symm
  refine ⟨?_, ⟨net, hnet, hrun s budget seed⟩,
    fun n es net hnet => run_toSource hnet s budget seed⟩
  rw [hrun, hrun', hnets]

end Exact

theorem run_presentation_chain :
    ∃ net : Network ℚ, Network.ofEdges 3 [⟨0, 1, 1⟩, ⟨1, 2, 2⟩] = .ok net ∧
      (ofSettings ⟨1 / 10, .multilevel none, .ascending, none, false⟩ : Solver ℚ).run 3
          ⟨false, 3, [⟨2, 1, 1⟩, ⟨1, 0, 2⟩, ⟨1, 2, 3⟩]⟩ (some fun n : Nat => n / 2) none =
        (ofSettings ⟨1 / 10, .multilevel none, .ascending, none, false⟩).cluster 3 net none := by
  have hwhole : SourceGraph.Sound ⟨false, 3, [⟨0, 1, 1⟩, ⟨1, 2, 2⟩]⟩ (some (id : ℚ → ℚ)) :=
    ⟨rfl, by decide, by decide +kernel, by decide +kernel⟩
  have hparts : SourceGraph.Sound ⟨false, 3, [⟨2, 1, 1⟩, ⟨1, 0, 2⟩, ⟨1, 2, 3⟩]⟩
      (some fun n : Nat => (n / 2 : ℚ)) :=
    ⟨rfl, by decide, by decide +kernel, by decide +kernel⟩
  have hsame := sameEdges_iff.2 (show
    mergeParallel (SourceGraph.weighed (⟨false, 3, [⟨0, 1, 1⟩, ⟨1, 2, 2⟩]⟩ : SourceGraph ℚ)
        (some id)) =
      mergeParallel (SourceGraph.weighed ⟨false, 3, [⟨2, 1, 1⟩, ⟨1, 0, 2⟩, ⟨1, 2, 3⟩]⟩
        (some fun n : Nat => (n / 2 : ℚ))) by
    rw [Weight.ofField_rat]
    cbv)
  obtain ⟨hrun, ⟨net, hnet, hcluster⟩, -⟩ := run_presentation hwhole hparts rfl hsame
    (ofSettings ⟨1 / 10, .multilevel none, .ascending, none, false⟩) 3 none
  exact ⟨net, hnet, hrun.symm.trans hcluster⟩

end Solver

end Communities
