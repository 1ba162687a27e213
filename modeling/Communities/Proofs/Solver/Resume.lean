import Communities.Proofs.Solver.Curtailed
import Communities.Proofs.Solver.Leads

/-!
# Runs taken up again

A run can be stopped after any of its levels and taken up again with the partition it has come to.
In exact arithmetic the seed draws the vertices together into the very network that the levels have
led to, and where the nodes take their turns by ascending id the number of a level does not show. So
the search goes on as it would have, and the next level is the same.

* `Search.Builds`: a level of a climb that moves nodes, with the network it is built on;
  `Climbs.exists_builds`: each but the first level of a climb is one.
* `Solver.Start.exists_next`: the network that a level of a run is built on is the one that the
  partition below it draws together.
* `Solver.Draws`: the networks that a run draws together; `Solver.cluster_resumed`: a run of one
  level from the partition of a level gives the next one.
-/

namespace Communities

variable {K : Type} [Field K] [LinearOrder K]

/-! ## A level on the way -/

/-- A search from single nodes that moves some of them, the level it gives, and the network that
this draws together. -/
structure Search.Builds (settings : Settings K) (budget number : Nat) (current : Network K)
    (scratch : Scratch K) (level : Level K) (reduced : Network K) (s : Search K) (p : Partition) :
    Prop where
  /-- The search has ended by itself. -/
  ended : s.Ended settings budget number current scratch
  /-- It has moved nodes. -/
  moved : s.moveCount ≠ 0
  /-- The level says what it has come to. -/
  scored : s.level current = .ok (level, p)
  /-- Its communities are drawn together. -/
  drawn : current.condense p = .ok reduced

variable {settings : Settings K} {budget number : Nat} {current : Network K} {scratch : Scratch K}
  {networks : List (Network K)} {c : Climb K}

theorem Search.Builds.single {level : Level K} {reduced : Network K} {s : Search K} {p : Partition}
    (horder : settings.order = .ascending)
    (h : s.Builds settings budget number current scratch level reduced p) (scratch' : Scratch K) :
    ∃ space, Search.Builds (settings.withLevels .single) budget 0 current scratch' level reduced
      { s with scratch := space } p := by
  obtain ⟨space, hended⟩ := h.ended.renumbered horder 0 scratch
  obtain ⟨space', hended'⟩ := hended.withLevels .single scratch'
  exact ⟨space', hended', h.moved, h.scored, h.drawn⟩

/-- The levels below one of them lead to the network that it is built on. -/
theorem Climbs.exists_builds [IsStrictOrderedRing K] (hnet : current.Canonical)
    (h : Climbs settings budget number current scratch networks c) {levels : List (Level K)}
    {coarse : Option (Network K)} (hc : c.result = .ok (levels, coarse)) {k : Nat}
    (hlater : 0 < number + k) {level : Level K} (hk : levels[k]? = some level) :
    ∃ mid f scratch' s p top, Leads current (levels.take k) mid f ∧
      Search.Builds settings budget (number + k) mid scratch' level top s p ∧
        networks[k]? = some top := by
  -- The levels below are taken off one by one; each draws together what the next is built on.
  induction k generalizing number current scratch networks c levels coarse with
  | zero =>
    cases h with
    | capped => cases hc
    | rest => cases hc; cases hk
    | still => exact absurd hlater (Nat.lt_irrefl 0)
    | top ended moved scored drawn =>
      cases hc
      cases hk
      exact ⟨_, _, _, _, _, _, .refl hnet, ⟨ended, moved, scored, drawn⟩, rfl⟩
    | step ended moved scored drawn =>
      obtain ⟨found, -, hlevels⟩ := map_eq_ok_iff.1 hc
      cases hlevels
      cases hk
      exact ⟨_, _, _, _, _, _, .refl hnet, ⟨ended, moved, scored, drawn⟩, rfl⟩
  | succ k ih =>
    cases h with
    | capped => cases hc
    | rest => cases hc; cases hk
    | still => cases hc; cases hk
    | top => cases hc; cases hk
    | step ended _ scored drawn _ _ above =>
      obtain ⟨⟨levels', coarse'⟩, hresult, hlevels⟩ := map_eq_ok_iff.1 hc
      cases hlevels
      obtain ⟨hreduced, -⟩ := ended.found.drawn hnet scored drawn
      obtain ⟨mid, f, scratch', s, p, top, hleads, hbuilds, htop⟩ :=
        ih hreduced above hresult (by omega) hk
      refine ⟨mid, _, scratch', s, p, top, ended.found.leads hnet scored drawn hleads, ?_, htop⟩
      rwa [← Nat.add_assoc, Nat.add_right_comm]

/-! ## A level again -/

namespace Solver

/-- The networks that a run draws together above the one it starts from, the lowest first. -/
def Draws (s : Solver K) (budget : Nat) (net : Network K) (seed : Option (Array Nat))
    (networks : List (Network K)) : Prop :=
  ∃ base labels c, Start net seed base labels ∧
    Climbs s.settings budget 0 base s.scratch networks c

/-- A run of one level from labels that use each node of a network. -/
theorem cluster_single {net mid top : Network K} {fine coarser : Array Nat} {level : Level K}
    {s : Search K} {p : Partition} (haccepted : Accepted ⟨settings, scratch⟩ net (some fine))
    (hedges : net.edgeCount ≠ 0) (hdense : ∀ x, x ∈ fine ↔ x < mid.size)
    (hcondense : net.condense (.ofLabels fine) = .ok mid)
    (hcap : settings.levels.cap = some 1)
    (hbuilds : s.Builds settings budget 0 mid scratch level top p)
    (hcompose : Hierarchy.compose fine level.labels = .ok coarser) :
    ∃ run s', cluster ⟨settings, scratch⟩ budget net (some fine) = .ok (run, s') ∧
      run.result = .ok ⟨[{ level with labels := coarser }], some top⟩ := by
  have hclimbs : Climbs settings budget 0 mid scratch [top] _ :=
    .top hbuilds.ended hbuilds.moved hbuilds.scored hbuilds.drawn (.inl (by simp [hcap]))
  have hback : pullBack (some (.ofLabels fine)) [level] =
      .ok [{ level with labels := coarser }] := by
    rw [pullBack, Partition.ofLabels_of_dense hdense, hcompose]
    rfl
  exact ⟨⟨_, _⟩, _, (haccepted.cluster_eq_ok_iff hedges (.seeded hcondense)).2
    ⟨_, _, hclimbs, rfl, rfl, .answered hback (List.cons_ne_nil _ _)⟩, rfl⟩

/-- The partition at a level draws the vertices together into the network that the next level is
built on. -/
theorem Start.exists_next [IsStrictOrderedRing K] {net base : Network K}
    {seed : Option (Array Nat)} {labels : Array Nat} {h : Hierarchy K} {levels : List (Level K)}
    (hnet : net.Canonical) (hseed : checkSeed (W := K) net.size seed = .ok ())
    (hstart : Start net seed base labels)
    (hclimbs : Climbs settings budget 0 base scratch networks c)
    (hresult : c.result = .ok (levels, h.coarse))
    (hback : Communities.pullBack (seed.map Partition.ofLabels) levels = .ok h.levels) {k : Nat}
    {level : Level K} (hlevel : h.levels[k + 1]? = some level) :
    ∃ fine coarser mid top scratch' found p,
      h.partitionAt k = .ok (some fine) ∧ fine.size = net.size ∧
      (∀ x, x ∈ fine ↔ x < mid.size) ∧ net.condense (.ofLabels fine) = .ok mid ∧
      Search.Builds settings budget (0 + (k + 1)) mid scratch' level top found p ∧
      networks[k + 1]? = some top ∧ Hierarchy.compose fine level.labels = .ok coarser := by
  obtain ⟨hbase, -, hmem⟩ := hstart.mem_labels hnet hseed
  obtain ⟨hk, -⟩ := List.getElem?_eq_some_iff.1 hlevel
  obtain ⟨mid, f, scratch', found, p, top, hleads, hbuilds, htop⟩ :=
    hclimbs.exists_builds hbase hresult (by omega) (getElem?_pullBack hback k ▸ hlevel)
  obtain ⟨hsize, hdense, hcondense⟩ := hstart.condense_eq hnet hseed hleads
  obtain ⟨hlabels, hfits⟩ :=
    hbuilds.ended.found.level_fits hleads.aggregates.canonical hbuilds.scored
  have hfine : h.partitionAt k = .ok (some (labels.map f)) :=
    hstart.partitionAt_eq hnet hseed (hclimbs.ascent hresult) hback (Nat.lt_of_succ_lt hk)
      (hleads.follow_eq labels fun x => (hmem x).1)
  refine ⟨labels.map f, (labels.map f).map p.labelAt, mid, top, scratch', found, p, hfine, hsize,
    hdense, hcondense, hbuilds, htop, ?_⟩
  rw [hlabels, hfits.compose fun x => (hdense x).1]

/-- Wherever a run has levels to go, one level from the partition it has come to gives the next of
them, and the network that this draws together. The space that the other run finds does not
matter. -/
theorem cluster_resumed [IsStrictOrderedRing K] {s s' : Solver K} {budget : Nat} {net : Network K}
    {seed : Option (Array Nat)} {run : Run K} {h : Hierarchy K} (hnet : net.Built)
    (hlevels : s.settings.levels = .multilevel none) (horder : s.settings.order = .ascending)
    (hedges : net.edgeCount ≠ 0) (hrun : s.cluster budget net seed = .ok (run, s'))
    (hh : run.result = .ok h) :
    (∃ networks, s.Draws budget net seed networks) ∧
    ∀ networks, s.Draws budget net seed networks → h.coarse = networks.getLast? ∧
      ∀ k, k + 1 < h.levels.length → ∃ fine coarser level top,
        h.partitionAt k = .ok (some fine) ∧ h.partitionAt (k + 1) = .ok (some coarser) ∧
        h.levels[k + 1]? = some level ∧ networks[k + 1]? = some top ∧
        ∀ scratch, ∃ run' s'',
          cluster ⟨s.settings.withLevels .single, scratch⟩ budget net (some fine) =
            .ok (run', s'') ∧
          run'.result = .ok ⟨[{ level with labels := coarser }], some top⟩ := by
  obtain ⟨haccepted, -⟩ := cluster_spec hrun hh
  have hcanonical := hnet.canonical
  constructor
  · obtain ⟨base, labels, hstart⟩ := exists_start_of_checkSeed hcanonical haccepted.seed_ok
    obtain ⟨networks, c, hclimbs, -⟩ := (haccepted.cluster_eq_ok_iff hedges hstart).1 hrun
    exact ⟨networks, base, labels, c, hstart, hclimbs⟩
  rintro networks ⟨base, labels, c, hstart, hclimbs⟩
  obtain ⟨_, c', hclimbs', -, -, hcarried⟩ := (haccepted.cluster_eq_ok_iff hedges hstart).1 hrun
  obtain rfl : c = c' := hclimbs.unique hclimbs'
  obtain ⟨levels, hresult, hback⟩ := (hh ▸ hcarried).of_ok
  refine ⟨hclimbs.coarse_eq hresult, fun k hk => ?_⟩
  obtain ⟨level, hlevel⟩ : ∃ level, h.levels[k + 1]? = some level :=
    ⟨_, List.getElem?_eq_getElem hk⟩
  obtain ⟨fine, coarser, mid, top, _, found, p, hfine, hsize, hdense, hcondense, hbuilds, htop,
    hcompose⟩ := hstart.exists_next hcanonical haccepted.seed_ok hclimbs hresult hback hlevel
  refine ⟨fine, coarser, level, top, hfine, ?_, hlevel, htop, fun scratch => ?_⟩
  · rw [Hierarchy.partitionAt_succ hlevel hfine, hcompose]
    rfl
  · obtain ⟨space, hsingle⟩ := hbuilds.single horder scratch
    have haccepted' : Accepted ⟨s.settings.withLevels .single, scratch⟩ net seed :=
      haccepted.withLevels hlevels (by simp) scratch
    have hseed : checkSeed (W := K) net.size (some fine) = .ok () :=
      checkSeed_eq_ok_iff.2 fun _ h => Option.some.inj h ▸ hsize
    exact cluster_single ⟨haccepted'.settings_ok, hseed, haccepted.edges_ok⟩ hedges hdense
      hcondense rfl hsingle hcompose

theorem cluster_resumed_kite :
    ∃ run s h, (ofSettings ⟨1 / 1000, .multilevel none, .ascending, none, false⟩ :
        Solver ℚ).cluster 2 Network.kite none = .ok (run, s) ∧ run.result = .ok h ∧
      h.levels.map (·.labels) = [#[1, 0, 0, 1], #[0, 0]] ∧
      ∃ level top run' s', h.levels[1]? = some level ∧
        (ofSettings ⟨1 / 1000, .single, .ascending, none, false⟩ : Solver ℚ).cluster 2 Network.kite
          (some #[1, 0, 0, 1]) = .ok (run', s') ∧
        run'.result = .ok ⟨[{ level with labels := #[0, 0, 0, 0] }], some top⟩ := by
  obtain ⟨run, s, h, hrun, hh, hlevels⟩ := cluster_kite
  have hmore : 0 + 1 < h.levels.length := by
    rw [hlevels]
    decide
  have hedges : Network.kite.edgeCount ≠ 0 := by decide
  obtain ⟨⟨networks, hdraws⟩, hresumed⟩ :=
    cluster_resumed Network.built_kite rfl rfl hedges hrun hh
  obtain ⟨fine, coarser, level, top, hfine, hcoarser, hlevel, -, hagain⟩ :=
    (hresumed networks hdraws).2 0 hmore
  obtain ⟨run', s', hrun', hresult⟩ := hagain .empty
  obtain ⟨levels, coarse⟩ := h
  dsimp only at hlevels
  subst hlevels
  cases hlevel
  cases hfine
  have hcompose : Hierarchy.compose #[1, 0, 0, 1] #[0, 0] = .ok #[0, 0, 0, 0] := by cbv
  rw [Hierarchy.partitionAt_succ rfl rfl, hcompose] at hcoarser
  cases hcoarser
  exact ⟨run, s, _, hrun, hh, rfl, _, top, run', s', rfl, hrun', hresult⟩

end Solver

end Communities
