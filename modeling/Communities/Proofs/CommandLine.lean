import Communities.CommandLine
import Communities.Proofs.EdgeList
import Communities.Proofs.LocalSearch.Points
import Communities.Proofs.Solver.Connected
import Communities.Proofs.Solver.Faultless
import Communities.Proofs.Table

/-!
# The command meets no fault

Whatever bytes its files hold and whatever its settings are, the command ends with an outcome: an
edge list that can be read has only edges between its vertices, so its network can be built, no run
on that meets a fault, and the partitions of its hierarchy have an entry for each line of the table.
This holds in any arithmetic, so no weight can do any harm, be it negative, infinite or no number.

* `CommandLine.command_faultless`: no command meets a fault.
* `CommandLine.never_faults`: nor does any run on a list of edges, and the number of communities is
  never off by one.
-/

namespace Communities

open Text

variable {W : Type} [Weight W]

namespace CommandLine

/-! ## The command -/

variable {weights : WeightText W} {settings : Settings W} {es : EdgeList W} {net : Network W}

theorem clusterEdges_faultless (hnet : net.Canonical) (hsize : net.size = es.size)
    (budget : Nat) (path : String) (seed : Option (Array Nat)) :
    Faultless (clusterEdges weights settings budget path es net seed) := by
  rw [clusterEdges]
  refine (Solver.cluster_faultless hnet ..).bind fun ⟨run, s⟩ hrun => ?_
  dsimp only
  cases hresult : run.result with
  | error e => exact .ok _
  | ok h =>
    obtain ⟨haccepted, hanswers⟩ := Solver.cluster_spec hrun hresult
    obtain ⟨text, htext⟩ : ∃ text, es.table h = .ok text := EdgeList.exists_table fun k hk => by
      obtain ⟨labels, hlabels, hlength, -⟩ :=
        hanswers.exists_partitionAt hnet haccepted.seed_ok hk
      exact ⟨labels, hlabels, hlength.trans hsize⟩
    simp only [htext]
    exact .ok _

theorem command_faultless (weights : WeightText W) (settings : Settings W) (budget : Nat)
    (files : String → Source) (input out : String) (partition : Option String) :
    Faultless (command weights settings budget files input out partition) := by
  rw [command]
  cases hread : readEdges weights files input with
  | error e => exact .ok _
  | ok es =>
    have hes : EdgeList.read weights (files input) = .ok es := by
      rw [readEdges] at hread
      cases hedges : EdgeList.read weights (files input) with
      | error e => rw [hedges] at hread; cases hread
      | ok es => rw [hedges] at hread; cases hread; rfl
    obtain ⟨hlt, hends⟩ := EdgeList.ends_of_read hes
    obtain ⟨net, hnet, hsize⟩ := Network.exists_ofEdges hlt hends
    simp only [EdgeList.toNetwork, hnet, liftM_ok, ok_bind]
    cases readSeed weights files es partition with
    | error e => exact .ok _
    | ok seed =>
      exact (clusterEdges_faultless (Network.ofEdges_canonical hnet) hsize ..).bind
        fun _ _ => .ok _

/-- Nothing meets a fault: no command, whatever is in its files; no run on a network with edges
between its nodes, whatever the weights; and at no point of a search is the number of communities
raised above that of the nodes, or lowered at zero. -/
theorem never_faults :
    (∀ (weights : WeightText W) (settings : Settings W) (budget : Nat)
      (files : String → Source) (input out : String) (partition : Option String),
        Faultless (command weights settings budget files input out partition)) ∧
    (∀ (n : Nat) (es : List (Edge W)), n < idBound → (∀ e ∈ es, e.source < n ∧ e.target < n) →
      ∃ net, Network.ofEdges n es = .ok net ∧
        ∀ (s : Solver W) (budget : Nat) (seed : Option (Array Nat)),
          Faultless (s.cluster budget net seed)) ∧
    ∀ (net : Network W) (roster : Roster W) (threshold : W) (scratch : Scratch W), net.Built →
      0 < net.degrees.total → roster.Indexes net.size → roster.Counts net.size →
      ∀ (vs : List Nat) (v : Nat), (∀ u ∈ v :: vs, u < net.size) →
        ∃ moves w move w', Search.turns ⟨net, net.degrees, threshold⟩
            ⟨roster, scratch.tally.blank roster.capacity⟩ vs = .ok (moves, w) ∧
          Search.turn ⟨net, net.degrees, threshold⟩ w v = .ok (move, w') ∧
          w.roster.occupied ≤ net.size ∧ net.size < idBound ∧
          ∀ m, move = some m → w'.roster.occupied +
            (if w'.roster.membersOf m.origin = [] then 1 else 0) = w.roster.occupied := by
  refine ⟨command_faultless, fun n es hn hes => ?_,
    fun net roster threshold scratch hnet hpos hr hcounts vs v hvs => ?_⟩
  · obtain ⟨net, hnet, -⟩ := Network.exists_ofEdges hn hes
    exact ⟨net, hnet, Solver.cluster_faultless (Network.ofEdges_canonical hnet)⟩
  · have hcanonical := hnet.canonical
    rw [List.forall_mem_cons] at hvs
    have hready : Search.Ready ⟨net, net.degrees, threshold⟩
        ⟨roster, scratch.tally.blank roster.capacity⟩ :=
      ⟨⟨hcanonical, rfl, hpos⟩, hr, Tally.clear_blank _ _⟩
    obtain ⟨moves, w, hturns, hready', htook⟩ := Search.turns_eq_ok hready hvs.2
    obtain ⟨move, w', hturn, -, hturned⟩ := Search.turn_eq_ok hready' hvs.1
    have hcounts' := htook.counts hr hvs.2 hcounts
    refine ⟨moves, w, move, w', hturns, hturn, ?_, hcanonical.size_lt, ?_⟩
    · rw [hcounts']
      exact card_usedLabels_le _ _
    · rintro m rfl
      exact hturned.occupied_add hcanonical hready'.indexes hvs.1 hcounts'

theorem never_faults_pair :
    (∃ net : Network ℚ, Network.ofEdges 2 [⟨0, 1, -1⟩] = .ok net ∧
      ∀ (s : Solver ℚ) (budget : Nat) (seed : Option (Array Nat)),
        Faultless (s.cluster budget net seed)) ∧
    ∃ w', Search.turn ⟨Network.pair, Network.pair.degrees, 1 / 10⟩
        ⟨.singletons Network.pair.degrees,
          Tally.empty.blank (Roster.singletons Network.pair.degrees).capacity⟩ 0 =
            .ok (some ⟨0, 0, 1, 1 / 2⟩, w') ∧
      w'.roster.occupied + (if w'.roster.membersOf 0 = [] then 1 else 0) = 2 := by
  obtain ⟨-, hnetworks, hcounted⟩ := never_faults (W := ℚ)
  refine ⟨hnetworks 2 [⟨0, 1, -1⟩] (by decide) (by decide), ?_⟩
  have hmove : (Search.turn ⟨Network.pair, Network.pair.degrees, 1 / 10⟩
      ⟨.singletons Network.pair.degrees,
        Tally.empty.blank (Roster.singletons Network.pair.degrees).capacity⟩ 0).map (·.1) =
          .ok (some ⟨0, 0, 1, 1 / 2⟩) := by
    decide +kernel
  obtain ⟨moves, w, move, w', hturns, hturn, -, -, hcount⟩ := hcounted Network.pair
    (.singletons Network.pair.degrees) (1 / 10) .empty Network.built_pair (by decide +kernel)
    (Roster.indexes_alone Network.pair) (Roster.Starts.alone (d := Network.pair.degrees)).counts
    [] 0 (by decide)
  cases hturns
  obtain ⟨found, hfound, hmove⟩ := map_eq_ok_iff.1 hmove
  cases hturn.symm.trans hfound
  cases hmove
  exact ⟨w', hturn, hcount _ rfl⟩

end CommandLine

end Communities
