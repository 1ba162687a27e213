import Communities.Proofs.Solver.Climbs

/-!
# What a run does

A successful run of the solver is a chain of levels: each searches its network from single nodes,
and all but the last go on with the network of the communities found. The chain starts at the
network itself, or where a seed has drawn it together.

* `Ascent`: the chain of levels above a network; `climb_spec`: a climb that gives levels is one.
* `climb_mono` and `Solver.cluster_mono`: a larger budget gives the same answer.
* `Solver.Start`: where a run starts, and `Solver.Accepted.cluster_eq_ok_iff`: what it comes to.
* `Solver.Answers`: what a run answers with; `Solver.cluster_spec`: a hierarchy is such an answer.
-/

namespace Communities

variable {W : Type} [Weight W]

/-- The search of level `number` from single nodes, which has ended by itself. -/
structure Search.Found (settings : Settings W) (number : Nat) (current : Network W)
    (s : Search W) : Prop where
  /-- The search is one with some budget and some space. -/
  run_eq : ∃ budget scratch, Search.run settings budget current current.degrees
    (.singletons current.degrees) number scratch = .ok s
  /-- It was not stopped. -/
  ending_ne : s.ending ≠ .capped

namespace Search.Found

variable {settings : Settings W} {number : Nat} {current : Network W} {s : Search W}

theorem indexes (hnet : current.Canonical) (h : s.Found settings number current) :
    s.roster.Indexes current.size := by
  obtain ⟨⟨budget, scratch, hrun⟩, -⟩ := h
  exact run_indexes hnet (Roster.indexes_alone current) hrun

theorem roster_eq (hnet : current.Canonical) (h : s.Found settings number current)
    (hstill : s.moveCount = 0) : s.roster = .singletons current.degrees := by
  obtain ⟨⟨budget, scratch, hrun⟩, -⟩ := h
  exact run_roster_eq hnet (Roster.indexes_alone current) hrun hstill

end Search.Found

/-- The levels from number `number` on, of which `current` is the network, and the network after
the last of them. -/
inductive Ascent (settings : Settings W) :
    Nat → Network W → List (Level W) → Option (Network W) → Prop
  /-- A later level that moves no node is not kept. -/
  | rest {number : Nat} {current : Network W} {s : Search W}
      (found : s.Found settings number current) (still : s.moveCount = 0) (later : 0 < number) :
    Ascent settings number current [] (some current)
  /-- The first level is kept even if it moves no node. -/
  | still {current : Network W} {s : Search W} {level : Level W} {p : Partition}
      (found : s.Found settings 0 current) (still : s.moveCount = 0)
      (scored : s.level current = .ok (level, p)) :
    Ascent settings 0 current [level] none
  /-- The last level that may be built, or one that draws nothing together. -/
  | top {number : Nat} {current reduced : Network W} {s : Search W} {level : Level W}
      {p : Partition} (found : s.Found settings number current) (moved : s.moveCount ≠ 0)
      (scored : s.level current = .ok (level, p)) (drawn : current.condense p = .ok reduced)
      (done : settings.levels.cap.any (· ≤ number + 1) ∨ ¬reduced.size < current.size) :
    Ascent settings number current [level] (some reduced)
  /-- A level with others above it. -/
  | step {number : Nat} {current reduced : Network W} {s : Search W} {level : Level W}
      {p : Partition} {levels : List (Level W)} {coarse : Option (Network W)}
      (found : s.Found settings number current) (moved : s.moveCount ≠ 0)
      (scored : s.level current = .ok (level, p)) (drawn : current.condense p = .ok reduced)
      (more : ¬settings.levels.cap.any (· ≤ number + 1)) (smaller : reduced.size < current.size)
      (above : Ascent settings (number + 1) reduced levels coarse) :
    Ascent settings number current (level :: levels) coarse

theorem Search.Ended.found {settings : Settings W} {budget number : Nat} {current : Network W}
    {scratch : Scratch W} {s : Search W} (h : s.Ended settings budget number current scratch) :
    s.Found settings number current :=
  ⟨⟨budget, scratch, h.run_eq⟩, h.ending_ne⟩

theorem Climbs.ascent {settings : Settings W} {budget number : Nat} {current : Network W}
    {scratch : Scratch W} {networks : List (Network W)} {c : Climb W}
    (h : Climbs settings budget number current scratch networks c) {levels : List (Level W)}
    {coarse : Option (Network W)} (hc : c.result = .ok (levels, coarse)) :
    Ascent settings number current levels coarse := by
  induction h generalizing levels coarse with
  | capped => cases hc
  | rest ended still later => cases hc; exact .rest ended.found still later
  | still ended still scored => cases hc; exact .still ended.found still scored
  | top ended moved scored drawn done => cases hc; exact .top ended.found moved scored drawn done
  | step ended moved scored drawn more smaller _ ih =>
    obtain ⟨⟨levels', coarse'⟩, hresult, hlevels⟩ := map_eq_ok_iff.1 hc
    cases hlevels
    exact .step ended.found moved scored drawn more smaller (ih hresult)

theorem climb_spec {settings : Settings W} {budget number : Nat} {current : Network W}
    {scratch : Scratch W} {c : Climb W} (h : climb settings budget number current scratch = .ok c)
    {levels : List (Level W)} {coarse : Option (Network W)} (hc : c.result = .ok (levels, coarse)) :
    Ascent settings number current levels coarse := by
  obtain ⟨networks, hclimbs⟩ := climb_eq_ok_iff.1 h
  exact hclimbs.ascent hc

/-- Only at the first level a climb can end without a network. -/
theorem Ascent.exists_coarse {settings : Settings W} {number : Nat} {current : Network W}
    {levels : List (Level W)} {coarse : Option (Network W)}
    (h : Ascent settings number current levels coarse) (hpos : 0 < number) :
    ∃ top, coarse = some top := by
  induction h with
  | rest => exact ⟨_, rfl⟩
  | still => exact absurd hpos (Nat.lt_irrefl 0)
  | top => exact ⟨_, rfl⟩
  | step _ _ _ _ _ _ _ ih => exact ih (Nat.succ_pos _)

/-- The budget does not show in what a climb gives. -/
theorem climb_mono {settings : Settings W} {budget budget' : Nat} (hle : budget ≤ budget')
    {number : Nat} {current : Network W} {scratch : Scratch W} {c : Climb W}
    (h : climb settings budget number current scratch = .ok c) :
    climb settings budget' number current scratch = .ok c := by
  obtain ⟨networks, hclimbs⟩ := climb_eq_ok_iff.1 h
  exact climb_eq_ok_iff.2 ⟨networks, hclimbs.mono hle⟩

omit [Weight W] in
theorem Hierarchy.ofLevels_eq_ok_iff {levels : List (Level W)} {coarse : Option (Network W)}
    {h : Hierarchy W} : ofLevels levels coarse = .ok h ↔ levels ≠ [] ∧ h = ⟨levels, coarse⟩ := by
  rw [ofLevels]
  cases levels with
  | nil => simp
  | cons first rest => simp [eq_comm]

namespace Solver

/-! ## Whole runs -/

/-- Where a run starts: the network of its first level, and the node of it that each vertex is
in. -/
inductive Start (net : Network W) : Option (Array Nat) → Network W → Array Nat → Prop
  /-- Every vertex is a node. -/
  | vertices : Start net none net (Array.range net.size)
  /-- The classes of a seed are the nodes. -/
  | seeded {labels : Array Nat} {base : Network W}
      (drawn : net.condense (.ofLabels labels) = .ok base) :
    Start net (some labels) base (Partition.ofLabels labels).labels

/-- The hierarchies that a run can answer with. -/
inductive Answers (settings : Settings W) (net : Network W) (seed : Option (Array Nat)) :
    Hierarchy W → Prop
  /-- Without edges there is nothing to search. -/
  | edgeless (none : net.edgeCount = 0) :
    Answers settings net seed ⟨[⟨seed.getD (Array.range net.size), 0, 0, 0⟩], .none⟩
  /-- The levels above the start, the first of them carried back to the vertices. -/
  | climbed {base : Network W} {labels : Array Nat} {levels pulled : List (Level W)}
      {coarse : Option (Network W)} (start : Start net seed base labels)
      (ascent : Ascent settings 0 base levels coarse)
      (back : pullBack (seed.map Partition.ofLabels) levels = .ok pulled) :
    Answers settings net seed ⟨pulled, coarse⟩

/-- What a run has accepted when it gives a hierarchy. -/
structure Accepted (s : Solver W) (net : Network W) (seed : Option (Array Nat)) : Prop where
  /-- The settings are in range. -/
  settings_ok : s.settings.check = .ok ()
  /-- The seed has a label for each vertex. -/
  seed_ok : checkSeed (W := W) net.size seed = .ok ()
  /-- The weights are fit. -/
  edges_ok : checkEdges net.edges = .ok ()

/-- What is left of a run when its first network is known. -/
def runFrom (s : Solver W) (budget : Nat) (seed : Option Partition) (base : Network W) :
    Except Interrupt (Run W × Solver W) := do
  let climbed ← climb s.settings budget 0 base s.scratch
  let s := ⟨s.settings, climbed.scratch⟩
  match climbed.result with
  | .error e => return (⟨climbed.journal, .error e⟩, s)
  | .ok (levels, coarse) =>
    let h ← Hierarchy.ofLevels (← pullBack seed levels) coarse
    return (⟨climbed.journal, .ok h⟩, s)

variable {s s' : Solver W} {budget : Nat} {net base : Network W} {seed : Option (Array Nat)}
  {labels : Array Nat} {run : Run W} {h : Hierarchy W}

theorem search_edgeless (hedges : net.edgeCount = 0) (seed : Option (Array Nat)) (budget : Nat) :
    s.search budget net seed = .ok (⟨[.edgeless seed.isSome],
      .ok ⟨[⟨seed.getD (Array.range net.size), 0, 0, 0⟩], none⟩⟩, s) := by
  rw [search, if_pos hedges]
  rfl

theorem Start.search_eq (hstart : Start net seed base labels) (hedges : net.edgeCount ≠ 0) :
    s.search budget net seed = s.runFrom budget (seed.map Partition.ofLabels) base := by
  rw [search, if_neg hedges]
  cases hstart with
  | vertices => rfl
  | seeded drawn =>
    simp only [Option.map_some, drawn]
    rfl

theorem exists_start {found : Run W × Solver W} (hsearch : s.search budget net seed = .ok found)
    (hedges : net.edgeCount ≠ 0) : ∃ base labels, Start net seed base labels := by
  cases seed with
  | none => exact ⟨_, _, .vertices⟩
  | some labels =>
    rw [search, if_neg hedges] at hsearch
    obtain ⟨base, hbase, -⟩ := bind_eq_ok_iff.1 hsearch
    exact ⟨base, _, .seeded (liftM_eq_ok_iff.1 hbase)⟩

/-- What a run comes to, by what its climb has come to: the first level is carried back to the
vertices of the seed. -/
inductive Carried (seed : Option Partition) :
    Except (Rejection W) (List (Level W) × Option (Network W)) →
      Except (Rejection W) (Hierarchy W) → Prop
  /-- A rejection stays. -/
  | rejected (e : Rejection W) : Carried seed (.error e) (.error e)
  /-- The levels are those of the hierarchy, of which there is one. -/
  | answered {levels pulled : List (Level W)} {coarse : Option (Network W)}
      (back : pullBack seed levels = .ok pulled) (kept : pulled ≠ []) :
    Carried seed (.ok (levels, coarse)) (.ok ⟨pulled, coarse⟩)

theorem runFrom_eq_ok_iff {seed : Option Partition} : s.runFrom budget seed base = .ok (run, s') ↔
    ∃ c, climb s.settings budget 0 base s.scratch = .ok c ∧ s' = ⟨s.settings, c.scratch⟩ ∧
      run.journal = c.journal ∧ Carried seed c.result run.result := by
  rw [runFrom]
  constructor
  · intro hrun
    obtain ⟨c, hclimb, hrun⟩ := bind_eq_ok_iff.1 hrun
    refine ⟨c, hclimb, ?_⟩
    cases hresult : c.result with
    | error e => simp only [hresult] at hrun; cases hrun; exact ⟨rfl, rfl, .rejected e⟩
    | ok found =>
      obtain ⟨levels, coarse⟩ := found
      simp only [hresult] at hrun
      obtain ⟨pulled, hpulled, hrun⟩ := bind_eq_ok_iff.1 hrun
      obtain ⟨h, hlevels, hrun⟩ := bind_eq_ok_iff.1 hrun
      rw [liftM_eq_ok_iff] at hpulled hlevels
      rw [Hierarchy.ofLevels_eq_ok_iff] at hlevels
      cases hrun
      exact ⟨rfl, rfl, hlevels.2 ▸ .answered hpulled hlevels.1⟩
  · rintro ⟨c, hclimb, rfl, hjournal, hcarried⟩
    obtain ⟨journal, result⟩ := run
    obtain rfl : journal = c.journal := hjournal
    rw [hclimb, ok_bind]
    dsimp only at hcarried ⊢
    generalize c.result = found at hcarried ⊢
    cases hcarried with
    | rejected e => rfl
    | answered back kept =>
      dsimp only
      rw [back, liftM_ok, ok_bind, Hierarchy.ofLevels_eq_ok_iff.2 ⟨kept, rfl⟩]
      rfl

omit [Weight W] in
theorem Carried.of_ok {seed : Option Partition}
    {found : Except (Rejection W) (List (Level W) × Option (Network W))}
    (hcarried : Carried seed found (.ok h)) :
    ∃ levels, found = .ok (levels, h.coarse) ∧ pullBack seed levels = .ok h.levels := by
  cases hcarried with
  | answered back => exact ⟨_, rfl, back⟩

theorem accepted_iff : s.Accepted net seed ↔
    (do s.settings.check; checkSeed net.size seed; checkEdges net.edges) = Except.ok () := by
  constructor
  · rintro ⟨hsettings, hseed, hedges⟩
    rw [hsettings, ok_bind, hseed, ok_bind, hedges]
  · intro h
    obtain ⟨_, hsettings, h⟩ := bind_eq_ok_iff.1 h
    obtain ⟨_, hseed, hedges⟩ := bind_eq_ok_iff.1 h
    exact ⟨hsettings, hseed, hedges⟩

/-- What is acceptable is searched. -/
theorem Accepted.cluster_eq (h : s.Accepted net seed) (budget : Nat) :
    s.cluster budget net seed = s.search budget net seed := by
  rw [cluster, accepted_iff.1 h]

/-- On a network with edges that is the climb from the start, carried back to the vertices. -/
theorem Accepted.cluster_eq_ok_iff (h : s.Accepted net seed) (hedges : net.edgeCount ≠ 0)
    (hstart : Start net seed base labels) : s.cluster budget net seed = .ok (run, s') ↔
      ∃ networks c, Climbs s.settings budget 0 base s.scratch networks c ∧
        s' = ⟨s.settings, c.scratch⟩ ∧ run.journal = c.journal ∧
          Carried (seed.map .ofLabels) c.result run.result := by
  rw [h.cluster_eq, hstart.search_eq hedges, runFrom_eq_ok_iff]
  constructor
  · rintro ⟨c, hclimb, hc⟩
    obtain ⟨networks, hclimbs⟩ := climb_eq_ok_iff.1 hclimb
    exact ⟨networks, c, hclimbs, hc⟩
  · rintro ⟨networks, c, hclimbs, hc⟩
    exact ⟨c, climb_eq_ok_iff.2 ⟨networks, hclimbs⟩, hc⟩

/-- What is not is rejected, and nothing happens. -/
theorem cluster_of_refused {e : Rejection W}
    (h : (do s.settings.check; checkSeed net.size seed; checkEdges net.edges) = .error e)
    (budget : Nat) : s.cluster budget net seed = .ok (⟨[], .error e⟩, s) := by
  rw [cluster, h]

/-- A run that gives a hierarchy has found nothing to reject. -/
theorem cluster_spec (hrun : s.cluster budget net seed = .ok (run, s')) (hh : run.result = .ok h) :
    s.Accepted net seed ∧ Answers s.settings net seed h := by
  cases hchecks : (do s.settings.check; checkSeed net.size seed; checkEdges net.edges) with
  | error e =>
    rw [cluster_of_refused hchecks] at hrun
    cases hrun
    cases hh
  | ok =>
    have haccepted := accepted_iff.2 hchecks
    refine ⟨haccepted, ?_⟩
    by_cases hedges : net.edgeCount = 0
    · rw [haccepted.cluster_eq, search_edgeless hedges] at hrun
      cases hrun
      cases hh
      exact .edgeless hedges
    · obtain ⟨base, labels, hstart⟩ := exists_start (haccepted.cluster_eq budget ▸ hrun) hedges
      obtain ⟨networks, c, hclimbs, -, -, hcarried⟩ :=
        (haccepted.cluster_eq_ok_iff hedges hstart).1 hrun
      obtain ⟨levels, hresult, hback⟩ := (hh ▸ hcarried).of_ok
      exact .climbed hstart (hclimbs.ascent hresult) hback

private theorem search_mono {budget' : Nat} (hle : budget ≤ budget') {found : Run W × Solver W}
    (hfound : s.search budget net seed = .ok found) : s.search budget' net seed = .ok found := by
  by_cases hedges : net.edgeCount = 0
  · rwa [search_edgeless hedges] at hfound ⊢
  · obtain ⟨base, labels, hstart⟩ := exists_start hfound hedges
    rw [hstart.search_eq hedges, runFrom] at hfound ⊢
    obtain ⟨c, hclimb, hfound⟩ := bind_eq_ok_iff.1 hfound
    rw [climb_mono hle hclimb]
    exact hfound

/-- A larger budget gives the same answer. -/
theorem cluster_mono {budget' : Nat} (hle : budget ≤ budget') {found : Run W × Solver W}
    (hfound : s.cluster budget net seed = .ok found) : s.cluster budget' net seed = .ok found := by
  rw [cluster] at hfound ⊢
  split at hfound
  · exact hfound
  · exact search_mono hle hfound

end Solver

end Communities
