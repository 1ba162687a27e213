import Communities.Proofs.LocalSearch.Scratch

/-!
# The cap on sweeps

The cap is looked at before each sweep and the moves after it, so a cap does not show in a search
that makes no more sweeps than it allows. Of a search that makes more it leaves the first ones, and
the communities are those that they have led to. This holds in any arithmetic, for any start.

* `Search.inRow`: so many sweeps, one after the other; `Search.inRow_of_settle`: a search is that.
* `Search.settle_cap`: what a cap makes of a search without one, `Search.run_cap`: the same for the
  search of a level, with `Search.stats` for what is told of it.
-/

namespace Communities

/-- The settings with another cap on the sweeps of a level. -/
def Settings.withMaxSweeps {W : Type} (settings : Settings W) (cap : Option Nat) : Settings W :=
  { settings with maxSweeps := cap }

variable {W : Type} [Weight W]

namespace Search

variable {t : Terrain W} {order : Array Nat} {budget : Nat} {w w' : Walk W}
  {sweeps : List (Sweep W)} {ending : Ending}

/-- A search that may make a sweep makes one, and goes on unless that moves no node. -/
theorem settle_succ_cases {left : Option Nat} (hleft : left ≠ some 0)
    (h : settle t order (budget + 1) left w = .ok (sweeps, ending, w')) :
    ∃ s w₁, sweep t w order = .ok (s, w₁) ∧
      ((s.moves = [] ∧ sweeps = [s] ∧ ending = .settled ∧ w' = w₁) ∨
        (s.moves ≠ [] ∧ ∃ rest, sweeps = s :: rest ∧
          settle t order budget (left.map (· - 1)) w₁ = .ok (rest, ending, w'))) := by
  have hsweep : ∃ s w₁, sweep t w order = .ok (s, w₁) := by
    rw [settle] at h
    · obtain ⟨⟨s, w₁⟩, hsweep, -⟩ := bind_eq_ok_iff.1 h
      exact ⟨s, w₁, liftM_eq_ok_iff.1 hsweep⟩
    · exact hleft
  obtain ⟨s, w₁, hsweep⟩ := hsweep
  refine ⟨s, w₁, hsweep, ?_⟩
  rw [settle_succ hleft hsweep] at h
  split at h
  · next hmoves =>
    cases h
    exact .inl ⟨hmoves, rfl, rfl, rfl⟩
  · next hmoves =>
    obtain ⟨⟨rest, ending', w₂⟩, hrest, h⟩ := map_eq_ok_iff.1 h
    cases h
    exact .inr ⟨hmoves, rest, rfl, hrest⟩

/-! ## Sweeps in a row -/

/-- So many sweeps one after the other, whether nodes move in them or not. -/
def inRow (t : Terrain W) (order : Array Nat) :
    Nat → Walk W → Except Fault (List (Sweep W) × Walk W)
  | 0, w => return ([], w)
  | n + 1, w => do
    let (s, w) ← sweep t w order
    let (rest, w) ← inRow t order n w
    return (s :: rest, w)

theorem inRow_succ {s : Sweep W} {w₁ : Walk W} (hsweep : sweep t w order = .ok (s, w₁)) (n : Nat) :
    inRow t order (n + 1) w = (inRow t order n w₁).map fun (rest, w) => (s :: rest, w) := by
  rw [inRow, hsweep, ok_bind]
  dsimp only
  cases inRow t order n w₁ <;> rfl

/-- A search is its sweeps. -/
theorem inRow_of_settle {left : Option Nat}
    (h : settle t order budget left w = .ok (sweeps, ending, w')) :
    inRow t order sweeps.length w = .ok (sweeps, w') := by
  induction budget generalizing left w sweeps with
  | zero =>
    by_cases hleft : left = some 0
    · rw [hleft, settle_capped] at h
      cases h
      rfl
    · rw [settle_spent hleft] at h
      cases h
  | succ budget ih =>
    by_cases hleft : left = some 0
    · rw [hleft, settle_capped] at h
      cases h
      rfl
    obtain ⟨s, w₁, hsweep, ⟨-, rfl, rfl, rfl⟩ | ⟨-, rest, rfl, hrest⟩⟩ := settle_succ_cases hleft h
    · rw [List.length_singleton, inRow_succ hsweep]
      rfl
    · rw [List.length_cons, inRow_succ hsweep, ih hrest]
      rfl

/-! ## With a cap and without -/

/-- A search is stopped only when it has made as many sweeps as it may. -/
theorem left_of_capped {left : Option Nat}
    (h : settle t order budget left w = .ok (sweeps, .capped, w')) : left = some sweeps.length := by
  induction budget generalizing left w sweeps with
  | zero =>
    by_cases hleft : left = some 0
    · rw [hleft, settle_capped] at h
      cases h
      exact hleft
    · rw [settle_spent hleft] at h
      cases h
  | succ budget ih =>
    by_cases hleft : left = some 0
    · rw [hleft, settle_capped] at h
      cases h
      exact hleft
    obtain ⟨s, w₁, -, ⟨-, -, hending, -⟩ | ⟨-, rest, rfl, hrest⟩⟩ := settle_succ_cases hleft h
    · cases hending
    · obtain ⟨n, rfl, hn⟩ := Option.map_eq_some_iff.1 (ih hrest)
      have hpos : n ≠ 0 := fun hzero => hleft (by rw [hzero])
      rw [List.length_cons, ← hn, Nat.sub_add_cancel (Nat.one_le_iff_ne_zero.2 hpos)]

/-- A search with a cap makes the sweeps of one without, all of them or as many as it may. -/
theorem settle_cap (h : settle t order budget none w = .ok (sweeps, ending, w')) (c : Nat) :
    (sweeps.length ≤ c → settle t order budget (some c) w = .ok (sweeps, ending, w')) ∧
    (c < sweeps.length →
      ∃ w₁, settle t order budget (some c) w = .ok (sweeps.take c, .capped, w₁)) := by
  induction budget generalizing c w sweeps with
  | zero => rw [settle_spent (by simp)] at h; cases h
  | succ budget ih =>
    obtain ⟨s, w₁, hsweep, hcases⟩ := settle_succ_cases (by simp) h
    cases c with
    | zero =>
      have hmade : 0 < sweeps.length := by
        obtain ⟨-, rfl, -, -⟩ | ⟨-, rest, rfl, -⟩ := hcases <;> simp
      exact ⟨fun hle => absurd hmade (by omega), fun _ => ⟨w, settle_capped _ _ _ _⟩⟩
    | succ c =>
      rw [settle_succ (by simp) hsweep]
      obtain ⟨hmoves, rfl, rfl, rfl⟩ | ⟨hmoves, rest, rfl, hrest⟩ := hcases
      · exact ⟨fun _ => if_pos hmoves, fun hlt => by simp at hlt⟩
      · obtain ⟨hle, hlt⟩ := ih hrest c
        rw [if_neg hmoves, Option.map_some, Nat.add_sub_cancel]
        refine ⟨fun h => ?_, fun h => ?_⟩
        · rw [hle (by simpa using h)]
          rfl
        · obtain ⟨w₂, hcapped⟩ := hlt (by simpa using h)
          exact ⟨w₂, by rw [hcapped]; rfl⟩

/-! ## The search of a level -/

/-- What is told of the search of a level: the numbers of its sweeps and moves, or that the cap has
stopped it. -/
def stats (s : Search W) (level : Nat) : Except (Rejection W) (Nat × Nat) :=
  if s.ending = .capped then .error (.notConverged level s.sweeps.length)
  else .ok (s.sweeps.length, s.moveCount)

/-- So many sweeps of a level that starts from the communities `roster`, and the communities that
they lead to. -/
def sweepsFrom (settings : Settings W) (net : Network W) (degrees : Degrees W) (roster : Roster W)
    (level n : Nat) : Except Fault (List (Sweep W) × Roster W) :=
  (inRow ⟨net, degrees, settings.threshold⟩ (settings.order.nodes level net.size) n
    ⟨roster, Tally.empty.blank roster.capacity⟩).map fun (sweeps, w) => (sweeps, w.roster)

variable {settings : Settings W} {net : Network W} {degrees : Degrees W} {roster : Roster W}
  {level : Nat} {scratch : Scratch W} {s : Search W}

theorem sweepsFrom_of_run {cap : Option Nat}
    (h : run (settings.withMaxSweeps cap) budget net degrees roster level scratch = .ok s) :
    sweepsFrom settings net degrees roster level s.sweeps.length = .ok (s.sweeps, s.roster) := by
  by_cases hpos : 0 < degrees.total
  · rw [run_of_pos hpos, scratch.tally.blank_congr .empty] at h
    obtain ⟨⟨sweeps, ending, w⟩, hsettle, rfl⟩ := map_eq_ok_iff.1 h
    exact congrArg (Except.map _) (inRow_of_settle hsettle)
  · rw [run_of_not_pos hpos] at h
    cases h
    rfl

theorem maxSweeps_of_capped (h : run settings budget net degrees roster level scratch = .ok s)
    (hcapped : s.ending = .capped) : settings.maxSweeps = some s.sweeps.length := by
  by_cases hpos : 0 < degrees.total
  · rw [run_of_pos hpos] at h
    obtain ⟨⟨sweeps, ending, w⟩, hsettle, rfl⟩ := map_eq_ok_iff.1 h
    obtain rfl : ending = .capped := hcapped
    exact left_of_capped hsettle
  · rw [run_of_not_pos hpos] at h
    cases h
    cases hcapped

theorem ending_ne_capped
    (h : run (settings.withMaxSweeps none) budget net degrees roster level scratch = .ok s) :
    s.ending ≠ .capped :=
  fun hcapped => nomatch maxSweeps_of_capped h hcapped

/-- A search with a cap comes to what one without comes to, or is stopped when it has made as many
sweeps as it may. -/
theorem run_cap
    (h : run (settings.withMaxSweeps none) budget net degrees roster level scratch = .ok s)
    (c : Nat) (scratch' : Scratch W) : ∃ s',
      run (settings.withMaxSweeps (some c)) budget net degrees roster level scratch' = .ok s' ∧
      (s.sweeps.length ≤ c → s'.upshot = s.upshot) ∧
      (c < s.sweeps.length → s'.ending = .capped ∧ s'.sweeps = s.sweeps.take c) := by
  by_cases hpos : 0 < degrees.total
  · rw [run_of_pos hpos] at h
    obtain ⟨⟨sweeps, ending, w⟩, hsettle, rfl⟩ := map_eq_ok_iff.1 h
    rw [scratch.tally.blank_congr scratch'.tally] at hsettle
    obtain ⟨hle, hlt⟩ := settle_cap hsettle c
    rw [run_of_pos hpos]
    by_cases hc : sweeps.length ≤ c
    · exact ⟨_, congrArg (Except.map _) (hle hc), fun _ => rfl,
        fun h => absurd hc (Nat.not_le.2 h)⟩
    · obtain ⟨w₁, hcapped⟩ := hlt (Nat.lt_of_not_le hc)
      exact ⟨_, congrArg (Except.map _) hcapped, fun h => absurd h hc, fun _ => ⟨rfl, rfl⟩⟩
  · rw [run_of_not_pos hpos] at h ⊢
    cases h
    exact ⟨_, rfl, fun _ => rfl, fun h => by simp at h⟩

omit [Weight W] in
theorem stats_congr {s' : Search W} (h : s'.upshot = s.upshot) (level : Nat) :
    s'.stats level = s.stats level := by
  obtain ⟨sweeps, ending, roster, space⟩ := s
  obtain ⟨sweeps', ending', roster', space'⟩ := s'
  cases h
  rfl

/-- The same, with what is told of the two searches and where the first sweeps lead. -/
theorem stats_cap
    (h : run (settings.withMaxSweeps none) budget net degrees roster level scratch = .ok s)
    (c : Nat) (scratch' : Scratch W) :
    s.stats level = .ok (s.sweeps.length, s.moveCount) ∧
    sweepsFrom settings net degrees roster level s.sweeps.length = .ok (s.sweeps, s.roster) ∧
    ∃ s', run (settings.withMaxSweeps (some c)) budget net degrees roster level scratch' = .ok s' ∧
      (s.sweeps.length ≤ c → s'.stats level = s.stats level ∧ s'.upshot = s.upshot) ∧
      (c < s.sweeps.length → s'.stats level = .error (.notConverged level c) ∧
        sweepsFrom settings net degrees roster level c = .ok (s.sweeps.take c, s'.roster)) := by
  obtain ⟨s', hrun, hle, hlt⟩ := run_cap h c scratch'
  refine ⟨if_neg (ending_ne_capped h), sweepsFrom_of_run h, s', hrun,
    fun hc => ⟨stats_congr (hle hc) level, hle hc⟩, fun hc => ?_⟩
  obtain ⟨hcapped, hsweeps⟩ := hlt hc
  have hlength : s'.sweeps.length = c := by
    rw [hsweeps, List.length_take, Nat.min_eq_left (Nat.le_of_lt hc)]
  refine ⟨by rw [stats, if_pos hcapped, hlength], ?_⟩
  rw [← hsweeps, ← sweepsFrom_of_run hrun, hlength]

end Search

end Communities
