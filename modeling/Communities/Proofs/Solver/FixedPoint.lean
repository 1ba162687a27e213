import Communities.Proofs.LocalSearch.Rest
import Communities.Proofs.Solver.Leads
import Communities.Proofs.Solver.Shape

/-!
# A finished run is a fixed point

A run that may build as many levels as it likes ends on a network whose single nodes are at rest.
That network is what the final partition draws together from the vertices. So a second run, from the
final partition as its seed, starts where the first one has ended, and has nothing to do.

* `Ascent.rests`: a climb without a cap ends at rest.
* `Search.exists_still`: a search of nodes at rest moves none, and `climb_of_still`: the climb that
  starts with it has one level.
* `Solver.cluster_fixed_point`: the second run.
-/

namespace Communities

/-! ## Where a run ends -/

section Ascent

variable {K : Type} [Field K] [LinearOrder K] {settings : Settings K} {number : Nat}
  {current : Network K}

theorem Search.Found.atRest {W : Type} [Weight W] {settings : Settings W} {current : Network W}
    (hnet : current.Canonical) {s : Search W} (h : s.Found settings number current)
    (hstill : s.moveCount = 0) (hpos : 0 < current.degrees.total) :
    Terrain.AtRest ⟨current, current.degrees, settings.threshold⟩
      (.singletons current.degrees) := by
  have hsame := h.roster_eq hnet hstill
  obtain ⟨⟨budget, scratch, hrun⟩, hending⟩ := h
  have hrest := run_atRest hnet (Roster.indexes_alone current) hpos hrun hending
  rwa [hsame] at hrest

variable [IsStrictOrderedRing K]

/-- Without a cap there is nothing left to do for single nodes where a climb ends. -/
theorem Ascent.rests (hnet : current.Canonical) (hcap : settings.levels.cap = none)
    {levels : List (Level K)} {coarse : Option (Network K)}
    (h : Ascent settings number current levels coarse)
    (hpos : 0 < (coarse.getD current).degrees.total) :
    Terrain.AtRest ⟨coarse.getD current, (coarse.getD current).degrees, settings.threshold⟩
      (.singletons (coarse.getD current).degrees) := by
  induction h with
  | rest found still => exact found.atRest hnet still hpos
  | still found still => exact found.atRest hnet still hpos
  | top found moved scored drawn done =>
    -- Moves always leave fewer communities than nodes.
    have hsize := ((found.scored hnet scored).drawn hnet drawn).2.1
    have hfewer := found.count_lt hnet scored moved
    simp [hcap, hsize, hfewer] at done
  | step found moved scored drawn _ _ above ih =>
    obtain ⟨top, rfl⟩ := above.exists_coarse (Nat.succ_pos _)
    exact ih ((found.scored hnet scored).drawn hnet drawn).1 hpos

end Ascent

/-! ## Starting there again -/

section Again

variable {W : Type} [Weight W] {settings : Settings W} {net : Network W}

/-- A search of single nodes at rest moves none of them. -/
theorem Search.exists_still (hnet : net.Canonical) (hcap : settings.maxSweeps ≠ some 0)
    (hrest : 0 < net.degrees.total →
      Terrain.AtRest ⟨net, net.degrees, settings.threshold⟩ (.singletons net.degrees))
    (budget level : Nat) (scratch : Scratch W) :
    ∃ s, run settings (budget + 1) net net.degrees (.singletons net.degrees) level scratch = .ok s ∧
      s.ending = .settled ∧ s.moveCount = 0 := by
  by_cases hpos : 0 < net.degrees.total
  · obtain ⟨s, hrun, hending, hsweeps, -⟩ := run_of_atRest hnet (Roster.indexes_alone net) hpos
      (hrest hpos) hcap budget level scratch
    exact ⟨s, hrun, hending, by rw [moveCount, hsweeps]; rfl⟩
  · exact ⟨_, run_of_not_pos hpos, rfl, rfl⟩

/-- A first level that moves no node is the only one. -/
theorem climb_of_still {budget : Nat} {scratch : Scratch W} {s : Search W}
    (hrun : Search.run settings budget net net.degrees (.singletons net.degrees) 0 scratch = .ok s)
    (hending : s.ending = .settled) (hstill : s.moveCount = 0) {level : Level W} {p : Partition}
    (hscored : s.level net = .ok (level, p)) :
    ∃ c, climb settings budget 0 net scratch = .ok c ∧ c.result = .ok ([level], none) := by
  have hended : s.Ended settings budget 0 net scratch := ⟨hrun, by rw [hending]; decide⟩
  exact ⟨_, climb_eq_ok_iff.2 ⟨_, .still hended hstill hscored⟩, rfl⟩

end Again

namespace Solver

variable {K : Type} [Field K] [LinearOrder K] [IsStrictOrderedRing K] {net top : Network K}
  {seed : Option (Array Nat)}

/-- A search that moves no node leaves a level of single nodes. -/
theorem exists_level_of_still {settings : Settings K} {number : Nat} (htop : top.Canonical)
    {s : Search K} (hfound : s.Found settings number top) (hstill : s.moveCount = 0) :
    ∃ sweeps p, s.level top = .ok (⟨.range top.size, aloneQuality top, sweeps, 0⟩, p) := by
  obtain ⟨level, p, hlevel, -, hscored⟩ := (hfound.gained htop).level_eq_ok htop
  have hmodularity := hscored.eq_of_still (Search.moves_level hlevel ▸ hstill)
  obtain ⟨rfl, q, -, rfl⟩ := Search.level_eq_ok_iff.1 hlevel
  refine ⟨s.sweeps.length, s.roster.toPartition, ?_⟩
  rw [hlevel]
  have hlabels : s.roster.toPartition.labels = .range top.size := by
    rw [hfound.roster_eq htop hstill, Roster.toPartition_singletons, Network.size_byNode]
    rfl
  rw [hlabels, hstill]
  simp only at hmodularity
  rw [hmodularity]

omit [IsStrictOrderedRing K] in
theorem maxSweeps_ne_zero {settings : Settings K} (h : settings.check = .ok ()) :
    settings.maxSweeps ≠ some 0 := by
  intro hcap
  rw [Settings.check] at h
  split at h
  · cases h
  · cases h

/-- Where a final partition draws the vertices together into nodes at rest, it is the only level of
a run that starts from it. -/
theorem EndsAt.cluster_again {h : Hierarchy K} {final : Array Nat}
    (hends : EndsAt net h final top) (hedges : net.edgeCount ≠ 0) {again : Solver K}
    (haccepted : again.Accepted net (some final))
    (hrest : 0 < top.degrees.total →
      Terrain.AtRest ⟨top, top.degrees, again.settings.threshold⟩ (.singletons top.degrees))
    (budget : Nat) :
    ∃ run again' sweeps, again.cluster (budget + 1) net (some final) = .ok (run, again') ∧
      run.result = .ok ⟨[⟨final, h.modularity, sweeps, 0⟩], none⟩ := by
  have htop : top.Canonical := Network.condense_canonical hends.condense_eq
  obtain ⟨s, hrun, hending, hstill⟩ := Search.exists_still htop
    (maxSweeps_ne_zero haccepted.settings_ok) hrest budget 0 again.scratch
  obtain ⟨sweeps, p, hlevel⟩ :=
    exists_level_of_still htop ⟨⟨_, _, hrun⟩, by rw [hending]; decide⟩ hstill
  obtain ⟨c, hclimb, hresult⟩ := climb_of_still hrun hending hstill hlevel
  have hback : Communities.pullBack (some (.ofLabels final))
      [(⟨.range top.size, aloneQuality top, sweeps, 0⟩ : Level K)] =
        .ok [⟨final, aloneQuality top, sweeps, 0⟩] := by
    rw [Communities.pullBack, Partition.ofLabels_of_dense hends.mem_labels,
      Hierarchy.compose_to_range fun x hx => (hends.mem_labels x).1 hx]
    rfl
  refine ⟨⟨c.journal, .ok ⟨[⟨final, aloneQuality top, sweeps, 0⟩], none⟩⟩,
    ⟨again.settings, c.scratch⟩, sweeps, ?_, by rw [hends.modularity_eq]⟩
  rw [haccepted.cluster_eq, (Start.seeded hends.condense_eq).search_eq hedges, runFrom, hclimb,
    ok_bind]
  dsimp only
  rw [hresult]
  dsimp only
  rw [Option.map_some, hback]
  rfl

/-- A run that may build as many levels as it likes has ended at a fixed point: with the same
threshold, and whatever the other settings that are in range, a run from its final partition gives
that partition as the only level, without a move, with the same modularity, and without a network
after it. -/
theorem cluster_fixed_point (hnet : net.Built) {s s' : Solver K} {budget : Nat}
    (hlevels : s.settings.levels = .multilevel none) {run : Run K}
    (hrun : s.cluster budget net seed = .ok (run, s')) {h : Hierarchy K} (hh : run.result = .ok h) :
    ∃ final, h.finalPartition = .ok final ∧
      ∀ again : Solver K, again.settings.check = .ok () →
        again.settings.threshold = s.settings.threshold → ∀ budget' : Nat,
          ∃ run' again' sweeps,
            again.cluster (budget' + 1) net (some final) = .ok (run', again') ∧
              run'.result = .ok ⟨[⟨final, h.modularity, sweeps, 0⟩], none⟩ := by
  obtain ⟨haccepted, hanswers⟩ := cluster_spec hrun hh
  have hcanonical := hnet.canonical
  have haccepted' : ∀ {again : Solver K} {final : Array Nat}, again.settings.check = .ok () →
      final.size = net.size → again.Accepted net (some final) := fun hsettings hsize =>
    ⟨hsettings, checkSeed_eq_ok_iff.2 fun _ h => by cases h; exact hsize, haccepted.edges_ok⟩
  by_cases hedges : net.edgeCount = 0
  · rw [haccepted.cluster_eq, search_edgeless hedges] at hrun
    cases hrun
    cases hh
    have hsize : (seed.getD (Array.range net.size)).size = net.size := by
      cases seed with
      | none => simp
      | some labels => exact checkSeed_eq_ok_iff.1 haccepted.seed_ok labels rfl
    refine ⟨seed.getD (Array.range net.size), rfl, fun again hsettings _ budget' => ?_⟩
    rw [(haccepted' hsettings hsize).cluster_eq, search_edgeless hedges]
    exact ⟨_, _, 0, rfl, rfl⟩
  · cases hanswers with
    | edgeless hnone => exact absurd hnone hedges
    | @climbed base labels levels pulled coarse start ascent back =>
      have hbase := (start.mem_labels hcanonical haccepted.seed_ok).1
      obtain ⟨final, hends⟩ := start.endsAt hcanonical haccepted.seed_ok ascent back
      refine ⟨final, hends.partition_eq, fun again hsettings hthreshold budget' => ?_⟩
      refine hends.cluster_again hedges (haccepted' hsettings hends.size_eq) (fun hpos => ?_)
        budget'
      rw [hthreshold]
      exact ascent.rests hbase (by rw [hlevels]; rfl) hpos

theorem cluster_fixed_point_pair :
    ∃ run s' h, (ofSettings ⟨1 / 10, .multilevel none, .ascending, none, false⟩ :
          Solver ℚ).cluster 3 Network.pair (some #[4, 7]) = .ok (run, s') ∧ run.result = .ok h ∧
      h.levels = [⟨#[0, 0], 0, 2, 1⟩] ∧
      ∃ run' again' sweeps, (ofSettings ⟨1 / 10, .single, .shuffled 7, some 1, true⟩ :
          Solver ℚ).cluster 1 Network.pair (some #[0, 0]) = .ok (run', again') ∧
        run'.result = .ok ⟨[⟨#[0, 0], 0, sweeps, 0⟩], none⟩ := by
  obtain ⟨run, s', h, hrun, hh, hlevels⟩ := cluster_pair
  obtain ⟨final, hfinal, hagain⟩ := cluster_fixed_point Network.built_pair rfl hrun hh
  have hzero : final = #[0, 0] ∧ h.modularity = 0 := by
    obtain ⟨levels, coarse⟩ := h
    subst hlevels
    exact ⟨(Except.ok.inj hfinal).symm, rfl⟩
  rw [hzero.1, hzero.2] at hagain
  exact ⟨run, s', h, hrun, hh, hlevels,
    hagain (ofSettings ⟨1 / 10, .single, .shuffled 7, some 1, true⟩) (by decide +kernel) rfl 0⟩

end Solver

end Communities
