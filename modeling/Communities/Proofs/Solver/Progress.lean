import Communities.Proofs.Solver.TrueScore

/-!
# Levels pay for their moves

The modularity of a hierarchy starts at that of the partition the run has started from and rises
with every level that moves a node, by more than the threshold for each move.

* `Ascent.pays` and `Ascent.pairwise_lt`: so it is along a chain of levels.
* `Solver.startPartition`: the partition a run starts from.
* `Solver.levels_pay`: so it is in every hierarchy, from the modularity of that partition on.
-/

namespace Communities

variable {K : Type} [Field K] [LinearOrder K] [IsStrictOrderedRing K]

/-! ## Along a chain of levels -/

/-- What a level has gained over the modularity before it. -/
def Level.Pays (threshold : K) (level : Level K) (before : K) : Prop :=
  (0 < level.moves → level.moves * threshold < level.modularity - before) ∧
    (level.moves = 0 → level.modularity = before)

section Ascent

variable {settings : Settings K} {number : Nat} {current : Network K} {levels : List (Level K)}
  {coarse : Option (Network K)}

omit [IsStrictOrderedRing K] in
theorem Level.Scored.pays {threshold : K} {level : Level K} {p : Partition}
    (h : level.Scored threshold current p) : level.Pays threshold (aloneQuality current) :=
  ⟨fun hmoves => h.lt_of_moves (Nat.ne_of_gt hmoves), h.eq_of_still⟩

/-- The single nodes of a network have the modularity of the level below it. -/
theorem Ascent.pays (hnet : current.Canonical) (h : Ascent settings number current levels coarse)
    {k : Nat} {level : Level K} (hk : levels[k]? = some level) {before : K}
    (hbefore : (aloneQuality current :: levels.map (·.modularity))[k]? = some before) :
    level.Pays settings.threshold before := by
  induction h generalizing k with
  | rest => cases hk
  | still found _ scored =>
    cases k with
    | zero => cases hk; cases hbefore; exact (found.scored hnet scored).pays
    | succ k => cases hk
  | top found _ scored =>
    cases k with
    | zero => cases hk; cases hbefore; exact (found.scored hnet scored).pays
    | succ k => cases hk
  | step found _ scored drawn _ _ _ ih =>
    have hscored := found.scored hnet scored
    obtain ⟨hcanonical, -, -, halone⟩ := hscored.drawn hnet drawn
    cases k with
    | zero => cases hk; cases hbefore; exact hscored.pays
    | succ k =>
      rw [List.getElem?_cons_succ, List.map_cons, ← halone] at hbefore
      exact ih hcanonical hk hbefore

theorem Level.Scored.lt_modularity {threshold : K} (hpos : 0 < threshold) {level : Level K}
    {p : Partition} (h : level.Scored threshold current p) (hmoves : level.moves ≠ 0) :
    aloneQuality current < level.modularity := by
  have hgain := h.lt_of_moves hmoves
  have hnonneg : 0 ≤ level.moves * threshold := mul_nonneg (Nat.cast_nonneg _) hpos.le
  linarith

/-- Only the first level can be one that moves no node. -/
theorem Ascent.pairwise_lt (hpos : 0 < settings.threshold) (hnet : current.Canonical)
    (h : Ascent settings number current levels coarse) :
    (levels.map (·.modularity)).Pairwise (· < ·) ∧
      (0 < number → ∀ level ∈ levels, aloneQuality current < level.modularity) := by
  have hmoved : ∀ {number : Nat} {current : Network K} {s : Search K} {level : Level K}
      {p : Partition}, current.Canonical → s.Found settings number current → s.moveCount ≠ 0 →
      s.level current = .ok (level, p) → aloneQuality current < level.modularity := by
    intro number current s level p hnet found moved scored
    refine (found.scored hnet scored).lt_modularity hpos ?_
    obtain ⟨-, q, -, rfl⟩ := Search.level_eq_ok_iff.1 scored
    exact moved
  induction h with
  | rest => simp
  | still => simp
  | top found moved scored => simpa using fun _ => hmoved hnet found moved scored
  | step found moved scored drawn _ _ _ ih =>
    have hfirst := hmoved hnet found moved scored
    obtain ⟨hcanonical, -, -, halone⟩ := (found.scored hnet scored).drawn hnet drawn
    obtain ⟨hpairwise, habove⟩ := ih hcanonical
    rw [halone] at habove
    have hlater := habove (Nat.succ_pos _)
    rw [List.map_cons, List.pairwise_cons, List.forall_mem_map]
    refine ⟨⟨hlater, hpairwise⟩, fun _ => List.forall_mem_cons.2 ⟨hfirst, fun level hlevel => ?_⟩⟩
    exact hfirst.trans (hlater level hlevel)

end Ascent

namespace Solver

/-! ## In a hierarchy -/

/-- The partition a run starts from: the seed, or every vertex alone. -/
def startPartition {W : Type} (net : Network W) (seed : Option (Array Nat)) : Partition :=
  (seed.map Partition.ofLabels).getD (.singletons net.size)

theorem fits_startPartition {W : Type} [Weight W] {net : Network W} {seed : Option (Array Nat)}
    (hseed : checkSeed (W := W) net.size seed = .ok ()) :
    (startPartition net seed).Fits net.size := by
  cases seed with
  | none => exact Partition.fits_singletons _
  | some labels => exact Partition.fits_ofLabels (checkSeed_eq_ok_iff.1 hseed labels rfl)

omit [IsStrictOrderedRing K] in
theorem modularity_startPartition {net : Network K} (hnet : net.Canonical)
    {seed : Option (Array Nat)} (hseed : checkSeed (W := K) net.size seed = .ok ()) :
    modularity net (startPartition net seed) =
      .ok (quality net.edges (startPartition net seed).labelAt) :=
  have hfits := fits_startPartition hseed
  modularity_eq_ok hnet hfits.toCovers (hnet.mul_lt_tableBytes hfits.count_le)

omit [IsStrictOrderedRing K] in
theorem Start.aloneQuality_eq {net base : Network K} (hnet : net.Canonical)
    {seed : Option (Array Nat)} {labels : Array Nat}
    (hseed : checkSeed (W := K) net.size seed = .ok ()) (h : Start net seed base labels) :
    aloneQuality base = quality net.edges (startPartition net seed).labelAt := by
  have hquality := (h.spec hnet hseed).quality_eq fun v => v
  cases h with
  | vertices => exact hquality
  | seeded => exact hquality

omit [IsStrictOrderedRing K] in
theorem threshold_pos {settings : Settings K} (h : settings.check = .ok ()) :
    0 < settings.threshold := by
  by_contra hpos
  rw [Settings.check, if_pos fun h => hpos h.2] at h
  cases h

/-- Every level of a hierarchy gains more than the threshold for each of its moves over the level
before it, the first one over the partition the run starts from, and nothing if it moves no node.
Only the first level can be one that moves none. -/
theorem levels_pay {net : Network K} (hnet : net.Built) {s s' : Solver K} {budget : Nat}
    {seed : Option (Array Nat)} {run : Run K}
    (hrun : s.cluster budget net seed = .ok (run, s')) {h : Hierarchy K}
    (hh : run.result = .ok h) :
    ∃ start, modularity net (startPartition net seed) = .ok start ∧
      (∀ (k : Nat) (level : Level K) (before : K), h.levels[k]? = some level →
        (start :: h.levels.map (·.modularity))[k]? = some before →
          (0 < level.moves →
            level.moves * s.settings.threshold < level.modularity - before) ∧
          (level.moves = 0 → level.modularity = before)) ∧
      (h.levels.map (·.modularity)).Pairwise (· < ·) := by
  obtain ⟨haccepted, hanswers⟩ := cluster_spec hrun hh
  have hcanonical := hnet.canonical
  refine ⟨_, modularity_startPartition hcanonical haccepted.seed_ok, ?_⟩
  cases hanswers with
  | edgeless hedges =>
    rw [quality_of_edgeless hcanonical hedges]
    refine ⟨fun k level before hk hbefore => ?_, List.pairwise_singleton _ _⟩
    cases k with
    | zero => cases hk; cases hbefore; exact ⟨fun h => absurd h (Nat.lt_irrefl 0), fun _ => rfl⟩
    | succ k => cases hk
  | @climbed base labels levels pulled coarse start ascent back =>
    have hbase := (start.spec hcanonical haccepted.seed_ok).canonical
    rw [← start.aloneQuality_eq hcanonical haccepted.seed_ok]
    obtain ⟨first, rest, rfl⟩ := List.exists_cons_of_ne_nil ascent.ne_nil
    obtain ⟨carried, -, rfl⟩ := start.pullBack (ascent.size_labels hbase) back
    refine ⟨fun k level before hk hbefore => ?_,
      (ascent.pairwise_lt (threshold_pos haccepted.settings_ok) hbase).1⟩
    cases k with
    | zero => cases hk; exact ascent.pays hbase (k := 0) rfl hbefore
    | succ k => exact ascent.pays hbase (k := k + 1) hk hbefore

theorem levels_pay_kite :
    ∃ run s' h, (ofSettings ⟨1 / 1000, .multilevel none, .ascending, none, false⟩ :
        Solver ℚ).cluster 2 Network.kite none = .ok (run, s') ∧ run.result = .ok h ∧
      h.levels = [⟨#[1, 0, 0, 1], -1 / 72, 2, 2⟩, ⟨#[0, 0], 0, 2, 1⟩] ∧
      ∃ start, modularity Network.kite (startPartition Network.kite none) = .ok start ∧
        (2 : Nat) * (1 / 1000) < -1 / 72 - start ∧ (1 : Nat) * (1 / 1000) < 0 - (-1 / 72 : ℚ) := by
  obtain ⟨run, s', h, hrun, hh, hlevels⟩ := cluster_kite
  obtain ⟨start, hstart, hpays, -⟩ := levels_pay Network.built_kite hrun hh
  have hfirst := (hpays 0 ⟨#[1, 0, 0, 1], -1 / 72, 2, 2⟩ start (by rw [hlevels]; rfl) rfl).1
    Nat.two_pos
  have hsecond := (hpays 1 ⟨#[0, 0], 0, 2, 1⟩ (-1 / 72) (by rw [hlevels]; rfl)
    (by rw [hlevels]; rfl)).1 Nat.one_pos
  exact ⟨run, s', h, hrun, hh, hlevels, start, hstart, hfirst, hsecond⟩

end Solver

end Communities
