import Communities.Proofs.Solver.Progress
import Communities.Proofs.SourceGraph
import Mathlib.Algebra.Order.Archimedean.Basic

/-!
# The search ends

Modularity is a potential: every move raises it by more than the threshold, drawing together keeps
it, and with weights that are not negative it lies between `-1/2` and `1`. So a run without a cap on
its sweeps ends, after fewer than `3 / (2 * threshold)` moves in all.

* `Search.exists_settle` and `Search.exists_run`: the search of a level ends by itself.
* `Ascent.moves_le`: the moves of all levels together are paid for by one rise of modularity.
* `exists_climb`: the levels end.
* `Solver.cluster_terminates`: every run ends, with bounds on its moves, sweeps and levels.
-/

namespace Communities

variable {K : Type} [Field K] [LinearOrder K] [IsStrictOrderedRing K]

namespace Search

/-! ## One level -/

/-- A budget for all sweeps that modularity leaves room for is enough. -/
theorem exists_settle {t : Terrain K} (hweights : ∀ e ∈ t.net.edges, 0 ≤ e.weight)
    (hpos : 0 < t.threshold) {order : Array Nat} (horder : ∀ v ∈ order, v < t.net.size)
    {budget : Nat} {w : Walk K} (h : Ready t w) (hw : w.roster.Consistent t.degrees)
    (hbudget : 1 - quality t.net.edges w.roster.communityAt ≤ budget * t.threshold) :
    ∃ sweeps w', settle t order budget none w = .ok (sweeps, .settled, w') := by
  induction budget generalizing w with
  | zero =>
    have hlt := quality_lt_one (f := w.roster.communityAt) hweights
    rw [Nat.cast_zero, zero_mul] at hbudget
    linarith
  | succ budget ih =>
    obtain ⟨moves, w₁, hsweep, h₁, htook⟩ := sweep_eq_ok h horder
    rw [settle_succ (by simp) hsweep]
    by_cases hmoves : moves = []
    · rw [if_pos hmoves]
      exact ⟨_, _, rfl⟩
    have hvs : ∀ v ∈ order.toList, v < t.net.size := fun v hv => horder v (by simpa using hv)
    have hgain := htook.mul_lt_quality_sub h.toSound hw hvs hmoves
    have hone : t.threshold ≤ moves.length * t.threshold :=
      le_mul_of_one_le_left hpos.le (by exact_mod_cast List.length_pos_iff.2 hmoves)
    have hroom : 1 - quality t.net.edges w₁.roster.communityAt ≤ budget * t.threshold := by
      rw [Nat.cast_succ, add_one_mul] at hbudget
      linarith
    obtain ⟨sweeps, w', hrest⟩ := ih h₁ (htook.consistent h.toSound hw hvs) hroom
    rw [if_neg hmoves, Option.map_none, hrest]
    exact ⟨_, _, rfl⟩

/-- The search of a level ends by itself, from any communities. -/
theorem exists_run {net : Network K} (hnet : net.Canonical) (hweights : ∀ e ∈ net.edges, 0 ≤ e.weight)
    {settings : Settings K} (hpos : 0 < settings.threshold) (hcap : settings.maxSweeps = none)
    {budget : Nat} (hbudget : 3 / 2 ≤ budget * settings.threshold) {r : Roster K}
    (hr : r.Consistent net.degrees) (level : Nat) (scratch : Scratch K) :
    ∃ s, run settings budget net net.degrees r level scratch = .ok s ∧ s.ending = .settled := by
  by_cases htotal : 0 < net.degrees.total
  · have hsound : Terrain.Sound ⟨net, net.degrees, settings.threshold⟩ := ⟨hnet, rfl, htotal⟩
    have hlow := neg_half_le_quality (f := r.communityAt) hweights
    have hready : Ready ⟨net, net.degrees, settings.threshold⟩
        ⟨r, scratch.tally.blank r.capacity⟩ :=
      ⟨hsound, hsound.indexes hr, Tally.clear_blank _ _⟩
    have horder : ∀ v ∈ settings.order.nodes level net.size, v < net.size :=
      fun v hv => VisitOrder.lt_of_mem_nodes hv
    have hroom : 1 - quality net.edges r.communityAt ≤ budget * settings.threshold := by linarith
    obtain ⟨sweeps, w, hsettle⟩ := exists_settle hweights hpos horder hready hr hroom
    rw [run_of_pos htotal, hcap, hsettle]
    exact ⟨_, rfl, rfl⟩
  · exact ⟨_, run_of_not_pos htotal, rfl⟩

end Search

/-- So does the search of a level of a run, which starts from single nodes. -/
theorem Search.exists_bounded_run {net : Network K} (hnet : net.Canonical)
    (hweights : ∀ e ∈ net.edges, 0 ≤ e.weight) {settings : Settings K}
    (hpos : 0 < settings.threshold) (hcap : settings.maxSweeps = none) {budget : Nat}
    (hbudget : 3 / 2 ≤ budget * settings.threshold) (number : Nat) (scratch : Scratch K) :
    ∃ s, Search.run settings budget net net.degrees (.singletons net.degrees) number scratch =
        .ok s ∧
      s.ending = .settled ∧ s.sweeps.length ≤ s.moveCount + 1 ∧
      s.moveCount < 3 / (2 * settings.threshold) := by
  obtain ⟨s, hrun, hsettled⟩ := exists_run hnet hweights hpos hcap hbudget
    (Roster.consistent_singletons _) number scratch
  have hfound : s.Found settings number net := ⟨⟨budget, scratch, hrun⟩, by rw [hsettled]; decide⟩
  have hgained := hfound.gained hnet
  refine ⟨s, hrun, hsettled, hgained.sweeps_le, ?_⟩
  rw [lt_div_iff₀ (by positivity)]
  by_cases hmoves : s.moveCount = 0
  · rw [hmoves, Nat.cast_zero, zero_mul]
    exact three_pos
  · have hgain := hgained.lt_of_moves hmoves
    have htop := quality_lt_one (f := s.roster.communityAt) hweights
    have hlow := neg_half_le_quality (f := fun v => v) hweights
    unfold aloneQuality at hgain
    linarith

/-! ## All levels -/

section Levels

variable {settings : Settings K} {number : Nat} {current : Network K} {levels : List (Level K)}
  {coarse : Option (Network K)}

/-- The moves of all levels are paid for by the rise from single nodes to one partition of them. -/
theorem Ascent.moves_le (hnet : current.Canonical)
    (h : Ascent settings number current levels coarse) :
    ∃ g : Nat → Nat, (levels.map (·.moves)).sum * settings.threshold ≤
      quality current.edges g - aloneQuality current := by
  -- A level that ends the chain pays for its own moves.
  have hlast : ∀ {current : Network K} {level : Level K} {p : Partition},
      level.Scored settings.threshold current p → level.moves * settings.threshold ≤
        quality current.edges p.labelAt - aloneQuality current := by
    intro current level p hscored
    rw [← hscored.modularity_eq]
    by_cases hmoves : level.moves = 0
    · rw [hscored.eq_of_still hmoves, hmoves, Nat.cast_zero, zero_mul, sub_self]
    · exact (hscored.lt_of_moves hmoves).le
  induction h with
  | rest => exact ⟨fun v => v, by simp [aloneQuality]⟩
  | still found _ scored => exact ⟨_, by simpa using hlast (found.scored hnet scored)⟩
  | top found _ scored => exact ⟨_, by simpa using hlast (found.scored hnet scored)⟩
  | @step _ _ _ _ _ p _ _ found _ scored drawn _ _ _ ih =>
    have hscored := found.scored hnet scored
    obtain ⟨hcanonical, -, hquality, halone⟩ := hscored.drawn hnet drawn
    obtain ⟨g, hg⟩ := ih hcanonical
    have hfirst := hlast hscored
    rw [← hscored.modularity_eq] at hfirst
    rw [halone, hquality] at hg
    refine ⟨fun v => g (p.labelAt v), ?_⟩
    rw [List.map_cons, List.sum_cons, Nat.cast_add, add_mul]
    linarith

theorem Ascent.sweeps_le (hnet : current.Canonical)
    (h : Ascent settings number current levels coarse) :
    ∀ level ∈ levels, level.sweeps ≤ level.moves + 1 := by
  induction h with
  | rest => simp
  | still found _ scored => simpa using (found.scored hnet scored).sweeps_le
  | top found _ scored => simpa using (found.scored hnet scored).sweeps_le
  | step found _ scored drawn _ _ _ ih =>
    have hscored := found.scored hnet scored
    exact List.forall_mem_cons.2 ⟨hscored.sweeps_le, ih (hscored.drawn hnet drawn).1⟩

/-- Without turns there are no moves. -/
theorem Search.Settled.moves_eq_nil {W : Type} [Weight W] {t : Terrain W} {r r' : Roster W}
    {sweeps : List (Sweep W)} {ending : Ending} (h : Settled t [] r sweeps ending r') :
    sweeps.flatMap (·.moves) = [] := by
  cases h with
  | cap => rfl
  | last => rfl
  | more took moved => cases took; exact absurd rfl moved

theorem Search.Found.size_pos {W : Type} [Weight W] {settings : Settings W} {number : Nat}
    {current : Network W} (hnet : current.Canonical) {s : Search W}
    (hfound : s.Found settings number current) (hmoved : s.moveCount ≠ 0) : 0 < current.size := by
  obtain ⟨⟨budget, scratch, hrun⟩, -⟩ := hfound
  by_contra hsize
  have hzero : current.size = 0 := Nat.eq_zero_of_not_pos hsize
  have hindexes := Roster.indexes_singletons current.degrees
  rw [Network.size_byNode] at hindexes
  rcases Search.run_spec hnet hindexes hrun with ⟨-, rfl⟩ | ⟨-, hsettled⟩
  · exact hmoved rfl
  · have hnone : (settings.order.nodes number current.size).toList = [] := by
      have hperm := settings.order.nodes_perm number current.size
      rw [hzero] at hperm ⊢
      simpa using hperm.toList
    rw [hnone] at hsettled
    exact hmoved (by rw [Search.moveCount, hsettled.moves_eq_nil]; rfl)

/-- Every level that goes on has fewer nodes than the one before. -/
theorem Ascent.length_le (hnet : current.Canonical)
    (h : Ascent settings number current levels coarse) :
    levels.length ≤ max 1 current.size ∧ (0 < number → levels.length ≤ current.size) := by
  induction h with
  | rest => simp
  | still => simp
  | top found moved =>
    have hpos := found.size_pos hnet moved
    simp only [List.length_singleton]
    omega
  | step found moved scored drawn _ smaller _ ih =>
    obtain ⟨-, hlength⟩ := ih ((found.scored hnet scored).drawn hnet drawn).1
    have := hlength (Nat.succ_pos _)
    rw [List.length_cons]
    omega

end Levels

/-- The levels end, since each one that goes on has fewer nodes, and the search of each ends. -/
theorem exists_climb {settings : Settings K} (hpos : 0 < settings.threshold)
    (hcap : settings.maxSweeps = none) {budget : Nat}
    (hbudget : 3 / 2 ≤ budget * settings.threshold) (number : Nat) {current : Network K}
    (hnet : current.Canonical) (hweights : ∀ e ∈ current.edges, 0 ≤ e.weight)
    (scratch : Scratch K) :
    ∃ c found, climb settings budget number current scratch = .ok c ∧ c.result = .ok found := by
  induction hn : current.size using Nat.strong_induction_on
    generalizing number current scratch with
  | _ n ih =>
  subst hn
  obtain ⟨s, hrun, hsettled⟩ := Search.exists_run hnet hweights hpos hcap hbudget
    (Roster.consistent_singletons _) number scratch
  have hended : s.Ended settings budget number current scratch := ⟨hrun, by rw [hsettled]; decide⟩
  obtain ⟨level, p, hlevel, -, hscored⟩ := (hended.found.gained hnet).level_eq_ok hnet
  obtain ⟨reduced, hdrawn, hcanonical, -, -⟩ := hnet.condense_eq_ok_of_fits hscored.fits
  by_cases hstill : s.moveCount = 0
  · rcases Nat.eq_zero_or_pos number with rfl | hlater
    · exact ⟨_, _, climb_eq_ok_iff.2 ⟨_, .still hended hstill hlevel⟩, rfl⟩
    · exact ⟨_, _, climb_eq_ok_iff.2 ⟨_, .rest hended hstill hlater⟩, rfl⟩
  by_cases hdone : settings.levels.cap.any (· ≤ number + 1) ∨ ¬reduced.size < current.size
  · exact ⟨_, _, climb_eq_ok_iff.2 ⟨_, .top hended hstill hlevel hdrawn hdone⟩, rfl⟩
  · obtain ⟨hmore, hsmaller⟩ := not_or.1 hdone
    rw [not_not] at hsmaller
    obtain ⟨c, ⟨levels, coarse⟩, hclimb, hresult⟩ := ih _ hsmaller (number + 1) hcanonical
      (Network.nonneg_condense hnet hscored.fits hweights hdrawn) s.scratch rfl
    obtain ⟨networks, hclimbs⟩ := climb_eq_ok_iff.1 hclimb
    refine ⟨_, (level :: levels, coarse), climb_eq_ok_iff.2
      ⟨_, .step hended hstill hlevel hdrawn hmore hsmaller hclimbs⟩, ?_⟩
    rw [Climb.cons, hresult]
    rfl

namespace Solver

/-! ## Whole runs -/

variable {s : Solver K} {net : Network K} {seed : Option (Array Nat)}

/-- What a run with a positive threshold and no cap can be rejected for, if its weights are not
negative. -/
def Refused (s : Solver K) (net : Network K) (seed : Option (Array Nat)) : Prop :=
  s.settings.levels = .multilevel (some 0) ∨ ∃ labels, seed = some labels ∧ labels.size ≠ net.size

omit [IsStrictOrderedRing K] in
private theorem checks_eq_ok (hpos : 0 < s.settings.threshold) (hcap : s.settings.maxSweeps = none)
    (hweights : ∀ e ∈ net.edges, 0 ≤ e.weight) (hrefused : ¬Refused s net seed) :
    (do s.settings.check; checkSeed net.size seed; checkEdges net.edges) = Except.ok () := by
  have hlevels : s.settings.levels ≠ .multilevel (some 0) := fun h => hrefused (.inl h)
  have hseed : ∀ labels, seed = some labels → labels.size = net.size := fun labels h =>
    by_contra fun hne => hrefused (.inr ⟨labels, h, hne⟩)
  have hsettings : s.settings.check = .ok () := by
    rw [Settings.check, if_neg (not_not.2 ⟨rfl, hpos⟩), if_neg (by rw [hcap]; simp),
      if_neg hlevels]
  exact accepted_iff.1 ⟨hsettings, checkSeed_eq_ok_iff.2 hseed, checkEdges_of_nonneg hweights⟩

private theorem exists_runFrom {budget : Nat} {base : Network K} {labels : Array Nat}
    (hnet : net.Canonical) (hseed : checkSeed (W := K) net.size seed = .ok ())
    (hstart : Start net seed base labels) (hweights : ∀ e ∈ base.edges, 0 ≤ e.weight)
    (hpos : 0 < s.settings.threshold) (hcap : s.settings.maxSweeps = none)
    (hbudget : 3 / 2 ≤ budget * s.settings.threshold) :
    ∃ run s' h, s.runFrom budget (seed.map Partition.ofLabels) base = .ok (run, s') ∧
      run.result = .ok h := by
  have hspec := hstart.spec hnet hseed
  obtain ⟨c, ⟨levels, coarse⟩, hclimb, hresult⟩ :=
    exists_climb hpos hcap hbudget 0 hspec.canonical hweights s.scratch
  have hascent := climb_spec hclimb hresult
  obtain ⟨first, rest, hback⟩ := hstart.exists_pullBack hnet hseed hascent
  refine ⟨⟨c.journal, .ok ⟨first :: rest, coarse⟩⟩, ⟨s.settings, c.scratch⟩,
    ⟨first :: rest, coarse⟩, ?_, rfl⟩
  rw [runFrom, hclimb, ok_bind]
  simp only [hresult, hback, liftM_ok, ok_bind]
  rfl

private theorem exists_search {budget : Nat} (hnet : net.Canonical)
    (hseed : checkSeed (W := K) net.size seed = .ok ()) (hweights : ∀ e ∈ net.edges, 0 ≤ e.weight)
    (hpos : 0 < s.settings.threshold) (hcap : s.settings.maxSweeps = none)
    (hbudget : 3 / 2 ≤ budget * s.settings.threshold) :
    ∃ run s' h, s.search budget net seed = .ok (run, s') ∧ run.result = .ok h := by
  by_cases hedges : net.edgeCount = 0
  · rw [search, if_pos hedges]
    exact ⟨_, _, _, rfl, rfl⟩
  · obtain ⟨base, labels, hstart⟩ := exists_start_of_checkSeed hnet hseed
    rw [hstart.search_eq hedges]
    exact exists_runFrom hnet hseed hstart (hstart.nonneg hnet hseed hweights) hpos hcap hbudget

/-- The bounds on what a run answers with. -/
structure Bounded (threshold : K) (nodes : Nat) (h : Hierarchy K) : Prop where
  /-- The moves of all levels together. -/
  moves_lt : ((h.levels.map (·.moves)).sum : Nat) < 3 / (2 * threshold)
  /-- The sweeps of each level. -/
  sweeps_le : ∀ level ∈ h.levels, level.sweeps ≤ level.moves + 1
  /-- The levels. -/
  length_le : h.levels.length ≤ max 1 nodes

private theorem Answers.bounded (hnet : net.Canonical)
    (hseed : checkSeed (W := K) net.size seed = .ok ()) (hweights : ∀ e ∈ net.edges, 0 ≤ e.weight)
    (hpos : 0 < s.settings.threshold) {h : Hierarchy K} (hanswers : Answers s.settings net seed h) :
    Bounded s.settings.threshold net.size h := by
  cases hanswers with
  | edgeless => exact ⟨by simpa using by positivity, by simp, by simp⟩
  | @climbed base labels levels pulled coarse start ascent back =>
    have hspec := start.spec hnet hseed
    obtain ⟨g, hmoves⟩ := ascent.moves_le hspec.canonical
    have hsweeps := ascent.sweeps_le hspec.canonical
    have hlength := (ascent.length_le hspec.canonical).1
    obtain ⟨first, rest, rfl⟩ := List.exists_cons_of_ne_nil ascent.ne_nil
    obtain ⟨carried, -, rfl⟩ := start.pullBack (ascent.size_labels hspec.canonical) back
    refine ⟨?_, ?_, ?_⟩
    · have htop := quality_lt_one (f := fun v => g (labels.getD v 0)) hweights
      have hlow := neg_half_le_quality (f := fun v => labels.getD v 0) hweights
      rw [aloneQuality, hspec.quality_eq, hspec.quality_eq] at hmoves
      rw [lt_div_iff₀ (by positivity)]
      show ((first :: rest).map (·.moves)).sum * (2 * s.settings.threshold) < 3
      linarith
    · obtain ⟨hfirst, hrest⟩ := List.forall_mem_cons.1 hsweeps
      exact List.forall_mem_cons.2 ⟨hfirst, hrest⟩
    · exact hlength.trans (max_le_max le_rfl hspec.size_le)

/-- One outcome for all budgets that leave room for the moves there can be. -/
private theorem exists_cluster [Archimedean K] (hnet : net.Canonical)
    (hseed : checkSeed (W := K) net.size seed = .ok ()) (hweights : ∀ e ∈ net.edges, 0 ≤ e.weight)
    (hpos : 0 < s.settings.threshold) (hcap : s.settings.maxSweeps = none)
    (hcluster : ∀ budget, s.cluster budget net seed = s.search budget net seed) :
    ∃ run s' h, run.result = .ok h ∧ ∀ budget : Nat, 3 / 2 ≤ budget * s.settings.threshold →
      s.cluster budget net seed = .ok (run, s') := by
  obtain ⟨limit, hlimit⟩ := exists_nat_ge (3 / 2 / s.settings.threshold)
  rw [div_le_iff₀ hpos] at hlimit
  obtain ⟨run, s', h, hrun, hh⟩ := exists_search hnet hseed hweights hpos hcap hlimit
  refine ⟨run, s', h, hh, fun budget hbudget => ?_⟩
  obtain ⟨run₁, s₁, -, hrun₁, -⟩ := exists_search hnet hseed hweights hpos hcap hbudget
  -- Both budgets give what the larger one gives.
  rw [← hcluster] at hrun hrun₁
  have hmax := cluster_mono (Nat.le_max_left limit budget) hrun
  rw [cluster_mono (Nat.le_max_right limit budget) hrun₁] at hmax
  rw [hrun₁, hmax]

/-- A run with a positive threshold and no cap on its sweeps ends, whatever the levels, the order of
turns and the seed, if no weight is negative. A budget of `3 / (2 * threshold)` sweeps is enough for
the search of every level it can meet, and the answer is the same with any such budget: a hierarchy
whose moves, sweeps and levels are bounded, or a rejection of the seed or of a cap of no levels. -/
theorem cluster_terminates [Archimedean K] (hnet : net.Built)
    (hweights : ∀ e ∈ net.edges, 0 ≤ e.weight) (hpos : 0 < s.settings.threshold)
    (hcap : s.settings.maxSweeps = none) :
    (∃ budget : Nat, 3 / (2 * s.settings.threshold) ≤ budget) ∧
    (∀ current : Network K, current.Built → (∀ e ∈ current.edges, 0 ≤ e.weight) →
      ∀ (budget number : Nat) (scratch : Scratch K), 3 / (2 * s.settings.threshold) ≤ budget →
        ∃ found, Search.run s.settings budget current current.degrees
            (.singletons current.degrees) number scratch = .ok found ∧
          found.ending = .settled ∧ found.sweeps.length ≤ found.moveCount + 1 ∧
          found.moveCount < 3 / (2 * s.settings.threshold)) ∧
    ∃ run s', (∀ budget : Nat, 3 / (2 * s.settings.threshold) ≤ budget →
        s.cluster budget net seed = .ok (run, s')) ∧
      (∀ e, run.result = .error e → Refused s net seed) ∧
      ∀ h, run.result = .ok h → Bounded s.settings.threshold net.size h := by
  have hroom : ∀ {budget : Nat}, 3 / (2 * s.settings.threshold) ≤ budget →
      3 / 2 ≤ budget * s.settings.threshold := by
    intro budget hbudget
    rw [div_le_iff₀ (by positivity)] at hbudget
    linarith
  refine ⟨exists_nat_ge _, ?_, ?_⟩
  · intro current hcurrent hnonneg budget number scratch hbudget
    exact Search.exists_bounded_run hcurrent.canonical hnonneg hpos hcap (hroom hbudget) number
      scratch
  · cases hchecks : (do s.settings.check; checkSeed net.size seed; checkEdges net.edges) with
    | error e =>
      refine ⟨⟨[], .error e⟩, s, fun budget _ => by rw [cluster, hchecks], fun _ _ => ?_,
        fun h hh => by cases hh⟩
      by_contra hrefused
      rw [checks_eq_ok hpos hcap hweights hrefused] at hchecks
      cases hchecks
    | ok u =>
      have hseed := (accepted_iff.2 hchecks).seed_ok
      obtain ⟨run, s', h, hh, hrun⟩ := exists_cluster hnet.canonical hseed hweights hpos hcap
        fun budget => by rw [cluster, hchecks]
      obtain ⟨limit, hlimit⟩ := exists_nat_ge (3 / (2 * s.settings.threshold))
      refine ⟨run, s', fun budget hbudget => hrun budget (hroom hbudget), fun e he => ?_,
        fun h' hh' => ?_⟩
      · rw [hh] at he
        cases he
      · have hanswers := (cluster_spec (hrun limit (hroom hlimit)) hh').2
        exact hanswers.bounded hnet.canonical hseed hweights hpos

theorem cluster_pair_terminates :
    (∀ e ∈ Network.pair.edges, 0 ≤ e.weight) ∧
    ∃ run s', (∀ budget : Nat, 15 ≤ budget →
        (ofSettings ⟨1 / 10, .multilevel none, .ascending, none, false⟩ : Solver ℚ).cluster budget
          Network.pair none = .ok (run, s')) ∧
      ∃ h, run.result = .ok h ∧ Bounded (1 / 10) 2 h := by
  have hweights : ∀ e ∈ Network.pair.edges, 0 ≤ e.weight := by decide +kernel
  obtain ⟨-, -, run, s', hrun, hrefused, hbounded⟩ :=
    @cluster_terminates ℚ _ _ _ (ofSettings ⟨1 / 10, .multilevel none, .ascending, none, false⟩)
      Network.pair none _ Network.built_pair hweights (by decide +kernel) rfl
  refine ⟨hweights, run, s', fun budget hbudget => hrun budget ?_, ?_⟩
  · have hlimit : 3 / (2 * (1 / 10)) = (15 : ℚ) := by norm_num
    show (3 / (2 * (1 / 10)) : ℚ) ≤ budget
    rw [hlimit]
    exact_mod_cast hbudget
  · cases hresult : run.result with
    | error e => rcases hrefused e hresult with h | ⟨labels, h, -⟩ <;> cases h
    | ok h => exact ⟨h, rfl, hbounded h hresult⟩

end Solver

end Communities
