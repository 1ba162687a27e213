import Communities.Proofs.LocalSearch.Scale
import Communities.Proofs.Modularity.Scale
import Communities.Proofs.Roster.Start
import Communities.Proofs.Solver.Reuse
import Communities.Proofs.Solver.TrueScore

/-!
# Runs in another unit

The weights of a network may be given in any unit. In exact arithmetic a run on the network in
another unit does the same, move for move, and gives the same levels with the same scores; the
network that is left, and a weight that is reported, have the other unit. This holds of every
network, also of one that does not have the form of built networks.

* `Climb.scale` and `Run.scale`: what a climb and a run come to, in the other unit.
* `Search.onward_scale` and `climb_scale`: a climb, level by level.
* `Solver.search_scale`: a run on an acceptable network, `Solver.cluster_scale`: any run.
* `Solver.unit_independent`: networks that are built, runs and single searches in another unit.
-/

namespace Communities

section Units

variable {K : Type} [Field K]

/-- The hierarchy with its network in another unit. -/
def Hierarchy.scale (k : K) (h : Hierarchy K) : Hierarchy K :=
  { h with coarse := h.coarse.map (.scale k) }

/-- The climb in another unit. Its journal and its levels have none. -/
def Climb.scale (k : K) (c : Climb K) : Climb K where
  journal := c.journal
  result := match c.result with
    | .ok (levels, coarse) => .ok (levels, coarse.map (.scale k))
    | .error e => .error (e.scale k)
  scratch := c.scratch.scale k

/-- The run in another unit. -/
def Run.scale (k : K) (run : Run K) : Run K where
  journal := run.journal
  result := match run.result with
    | .ok h => .ok (h.scale k)
    | .error e => .error (e.scale k)

theorem Hierarchy.ofLevels_scale (k : K) (levels : List (Level K)) (coarse : Option (Network K)) :
    ofLevels levels (coarse.map (.scale k)) = (ofLevels levels coarse).map (.scale k) := by
  rw [ofLevels, ofLevels]
  split <;> rfl

theorem Climb.cons_scale (k : K) (journal : List (Event K)) (level : Level K) (rest : Climb K) :
    cons journal level (rest.scale k) = (cons journal level rest).scale k := by
  obtain ⟨events, result, scratch⟩ := rest
  cases result <;> rfl

theorem checkSeed_scale (k : K) (nodes : Nat) (seed : Option (Array Nat)) :
    (checkSeed nodes seed).mapError (Rejection.scale k) = checkSeed nodes seed := by
  rw [checkSeed.eq_def]
  split
  · split <;> rfl
  · rfl

end Units

variable {K : Type} [Field K] [LinearOrder K]

section AnyFactor

variable (k : K)

theorem Settings.check_scale (settings : Settings K) :
    settings.check.mapError (Rejection.scale k) = settings.check := by
  rw [check]
  split_ifs <;> rfl

theorem startNetwork_scale (net : Network K) (seed : Option (Array Nat)) :
    startNetwork (net.scale k) seed = (startNetwork net seed).map (.scale k) := by
  cases seed with
  | none => rfl
  | some labels => exact net.condense_scale k (.ofLabels labels)

omit [LinearOrder K] in
theorem Climb.answer_scale (c : Climb K) (seed : Option Partition) :
    (c.scale k).answer seed = (c.answer seed).map (.scale k) := by
  obtain ⟨journal, result, scratch⟩ := c
  cases result with
  | error e => rfl
  | ok found =>
    refine bind_hom_right fun levels => ?_
    exact bind_hom (Hierarchy.ofLevels_scale k levels found.2) fun h => rfl

theorem Solver.edgelessRun_scale (net : Network K) (seed : Option (Array Nat)) :
    edgelessRun (net.scale k) seed = (edgelessRun net seed).map (.scale k) := by
  rw [edgelessRun, edgelessRun, Network.size_scale]
  exact bind_hom (Hierarchy.ofLevels_scale k _ none) fun h => rfl

end AnyFactor

/-! ## Climbs -/

/-- What follows a search, if the levels above keep to the other unit. -/
theorem Search.onward_scale {k : K} (hk : k ≠ 0) (s : Search K) (settings : Settings K)
    (number : Nat) (current : Network K)
    {above above' : Network K → Except Interrupt (Climb K)}
    (h : ∀ reduced, reduced.size < current.size →
      above' (reduced.scale k) = (above reduced).map (.scale k)) :
    (s.scale k).onward settings number (current.scale k) above' =
      (s.onward settings number current above).map (.scale k) := by
  have hlevel : (s.scale k).level (current.scale k) = s.level current := by
    rw [level, level, modularityByBlocks_scale hk]
    rfl
  have hreport (level : Level K) (p : Partition) :
      (s.scale k).report number (current.scale k) level p = s.report number current level p := by
    rw [report, report, Network.size_scale]
    rfl
  have hending : (s.scale k).ending = s.ending := rfl
  have hmoves : (s.scale k).moveCount = s.moveCount := rfl
  rw [onward, onward, hlevel, hending, hmoves, Network.size_scale]
  split_ifs
  · rfl
  · rfl
  refine bind_hom_right fun scored => ?_
  obtain ⟨level, p⟩ := scored
  dsimp only
  rw [hreport]
  split_ifs
  · rfl
  refine liftM_bind_hom (current.condense_scale k p) fun reduced => ?_
  rw [Network.size_scale]
  split_ifs with hdone
  · rfl
  · refine bind_hom (h reduced (not_not.1 (not_or.1 hdone).2)) fun c => ?_
    exact congrArg Except.ok (Climb.cons_scale k ..)

variable [IsStrictOrderedRing K] {k : K} (hk : 0 < k)

include hk

theorem climb_scale (settings : Settings K) (budget number : Nat) (current : Network K)
    (scratch : Scratch K) :
    climb settings budget number (current.scale k) (scratch.scale k) =
      (climb settings budget number current scratch).map (.scale k) := by
  induction hn : current.size using Nat.strong_induction_on
    generalizing number current scratch with
  | _ n ih =>
  subst hn
  rw [climb_eq_bind, climb_eq_bind, current.degrees_scale, Roster.singletons_scale]
  refine bind_hom (Search.run_scale hk settings budget current ..) fun s => ?_
  exact s.onward_scale hk.ne' settings number current fun reduced hsmaller =>
    ih _ hsmaller (number + 1) reduced s.scratch rfl

/-! ## Runs -/

namespace Solver

variable (settings : Settings K) (budget : Nat)

theorem search_scale (net : Network K) (seed : Option (Array Nat)) (scratch : Scratch K) :
    (search ⟨settings, scratch.scale k⟩ budget (net.scale k) seed).map (·.1) =
      ((search ⟨settings, scratch⟩ budget net seed).map (·.1)).map (.scale k) := by
  have hedges : (net.scale k).edgeCount = net.edgeCount := rfl
  rw [search_answer, search_answer, hedges]
  split_ifs
  · rw [edgelessRun_scale, liftM_map]
  refine liftM_bind_hom (startNetwork_scale k net seed) fun base => ?_
  refine bind_hom (climb_scale hk settings budget 0 base scratch) fun c => ?_
  rw [Climb.answer_scale, liftM_map]

theorem cluster_scale (net : Network K) (seed : Option (Array Nat)) (scratch : Scratch K) :
    (cluster ⟨settings, scratch.scale k⟩ budget (net.scale k) seed).map (·.1) =
      ((cluster ⟨settings, scratch⟩ budget net seed).map (·.1)).map (.scale k) := by
  have hchecks : (do settings.check; checkSeed (net.scale k).size seed
                     checkEdges (net.scale k).edges) =
      (do settings.check; checkSeed net.size seed; checkEdges net.edges).mapError
        (Rejection.scale k) := by
    simp only [mapError_bind_eq, settings.check_scale, checkSeed_scale, Network.size_scale,
      Network.edges_scale, checkEdges_scale hk]
  rw [cluster, cluster, hchecks]
  cases (do settings.check; checkSeed net.size seed; checkEdges net.edges) with
  | error e => rfl
  | ok => exact search_scale hk settings budget net seed scratch

/-- Edges in another unit make the network in that unit. A run on it comes to the same, with weights
in the other unit. On each level a search makes the same moves from the same communities, if their
sums are right in both. -/
theorem unit_independent :
    (∀ (n : Nat) (es : List (Edge K)),
      Network.ofEdges n (es.map (.scale k)) = (Network.ofEdges n es).map (.scale k)) ∧
    (∀ (settings : Settings K) (budget : Nat) (net : Network K) (seed : Option (Array Nat))
      (scratch scratch' : Scratch K),
      (cluster ⟨settings, scratch'⟩ budget (net.scale k) seed).map (·.1) =
        ((cluster ⟨settings, scratch⟩ budget net seed).map (·.1)).map (.scale k)) ∧
    ∀ (settings : Settings K) (budget : Nat) (net : Network K) (r : Roster K) (level : Nat)
      (scratch scratch' : Scratch K), r.Consistent net.degrees → r.Counts net.size →
      (r.scale k).Consistent (net.scale k).degrees ∧ (r.scale k).Counts net.size ∧
      ∀ r' : Roster K, r'.Consistent (net.scale k).degrees → r'.Counts net.size →
        r'.capacity = r.capacity → r'.communityOf = r.communityOf →
        (Search.run settings budget (net.scale k) (net.scale k).degrees r' level scratch').map
            Search.upshot =
          (Search.run settings budget net net.degrees r level scratch).map
            fun s => (s.scale k).upshot := by
  refine ⟨Network.ofEdges_scale k, fun settings budget net seed scratch scratch' => ?_, ?_⟩
  · rw [cluster_scratch settings budget (scratch.scale k) scratch', cluster_scale hk]
  intro settings budget net r level scratch scratch' hr hcounts
  have hsize : net.degrees.byNode.size = net.size := Array.size_mapIdx
  rw [net.degrees_scale]
  refine ⟨hr.scale k, hcounts, fun r' hr' hcounts' hcapacity hsame => ?_⟩
  rw [hr.eq_scale k (hsize ▸ hcounts) hr' (hsize ▸ hcounts') hcapacity hsame,
    Search.run_scratch settings budget _ _ _ level (scratch.scale k) scratch',
    Search.run_scale hk settings budget net net.degrees r level scratch]
  cases Search.run settings budget net net.degrees r level scratch <;> rfl

omit hk in
theorem unit_independent_pair :
    (0 : ℚ) < 3 ∧ Network.ofEdges 2 [(⟨0, 1, 3⟩ : Edge ℚ)] = .ok (Network.pair.scale 3) ∧
    (∃ run s h, cluster ⟨⟨1 / 10, .multilevel none, .ascending, none, false⟩, .empty⟩ 3
        (Network.pair.scale 3) (some #[4, 7]) = .ok (run, s) ∧ run.result = .ok h ∧
      h.levels = [⟨#[0, 0], 0, 2, 1⟩]) ∧
    (Roster.singletons (Network.pair.scale 3).degrees).Consistent (Network.pair.scale 3).degrees ∧
    (Search.run ⟨1 / 10, .single, .ascending, none, false⟩ 3 (Network.pair.scale 3)
        (Network.pair.scale 3).degrees (.singletons (Network.pair.scale 3).degrees) 0 .empty).map
        Search.upshot =
      (Search.run ⟨1 / 10, .single, .ascending, none, false⟩ 3 Network.pair Network.pair.degrees
        (.singletons Network.pair.degrees) 0 .empty).map fun s => (s.scale 3).upshot := by
  have hk : (0 : ℚ) < 3 := by norm_num
  obtain ⟨hedges, hruns, hsearches⟩ := unit_independent hk
  refine ⟨hk, ?_, ?_, Roster.consistent_singletons _, ?_⟩
  · have hpair : Network.ofEdges 2 [(⟨0, 1, 1⟩ : Edge ℚ)] = .ok Network.pair := by decide +kernel
    have hthree : [(⟨0, 1, 1⟩ : Edge ℚ)].map (Edge.scale 3) = [⟨0, 1, 3⟩] := by decide +kernel
    rw [← hthree, hedges, hpair]
    rfl
  · obtain ⟨run, s, h, hrun, hh, hlevels⟩ := cluster_pair
    have hscaled := hruns ⟨1 / 10, .multilevel none, .ascending, none, false⟩ 3 Network.pair
      (some #[4, 7]) .empty .empty
    rw [ofSettings] at hrun
    rw [hrun] at hscaled
    obtain ⟨⟨run', s'⟩, hrun', rfl⟩ := map_eq_ok_iff.1 hscaled
    refine ⟨run.scale 3, s', h.scale 3, hrun', ?_, hlevels⟩
    rw [Run.scale, hh]
  · obtain ⟨hconsistent, hcounts, hsame⟩ := hsearches
      ⟨1 / 10, .single, .ascending, none, false⟩ 3 Network.pair _ 0 .empty .empty
      (Roster.consistent_singletons _) Roster.Starts.alone.counts
    have hstart : Roster.singletons (Network.pair.scale 3).degrees =
        (Roster.singletons Network.pair.degrees).scale 3 := by
      rw [Network.degrees_scale, Roster.singletons_scale]
    rw [hstart]
    exact hsame _ hconsistent hcounts rfl rfl

end Solver

end Communities
