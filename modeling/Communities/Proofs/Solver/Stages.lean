import Communities.Proofs.Solver.Ascent

/-!
# The stages of a run

A climb is the search of a level and then one of its exits, or the climb above it; a run is its
start, a climb, and the answer that this leads to. The equations here say so for every network and
every seed, faults included.

* `climb_eq_bind`: a climb, with `Search.onward` for what comes after the search of a level.
* `Solver.search_answer`: a run on a network that has been found acceptable, with `Climb.answer` for
  what comes after the climb.
-/

namespace Communities

variable {W : Type} [Weight W]

/-! ## Climbs -/

/-- Where the search of level `number` leads a climb, with `above` for the levels after it. -/
def Search.onward (s : Search W) (settings : Settings W) (number : Nat) (current : Network W)
    (above : Network W → Except Interrupt (Climb W)) : Except Interrupt (Climb W) := do
  if s.ending = .capped then
    return ⟨s.events number, .error (.notConverged number s.sweeps.length), s.scratch⟩
  else if s.moveCount = 0 ∧ 0 < number then
    return .last (s.events number) [] (some current) s.scratch
  else
    let (level, p) ← s.level current
    if level.moves = 0 then
      return .last (s.report number current level p) [level] none s.scratch
    else
      let reduced ← current.condense p
      if settings.levels.cap.any (· ≤ number + 1) ∨ ¬reduced.size < current.size then
        return .last (s.report number current level p) [level] (some reduced) s.scratch
      else
        return .cons (s.report number current level p) level (← above reduced)

/-- A climb is a search, and what that leads to. -/
theorem climb_eq_bind (settings : Settings W) (budget number : Nat) (current : Network W)
    (scratch : Scratch W) : climb settings budget number current scratch =
      Search.run settings budget current current.degrees (.singletons current.degrees) number
        scratch >>= fun s => s.onward settings number current fun reduced =>
          climb settings budget (number + 1) reduced s.scratch := by
  rw [climb]
  refine congrArg _ (funext fun s => ?_)
  rw [Search.onward]
  dsimp only
  refine if_congr Iff.rfl rfl (if_congr Iff.rfl rfl ?_)
  refine congrArg _ (funext fun scored => ?_)
  obtain ⟨level, p⟩ := scored
  refine if_congr Iff.rfl rfl (congrArg _ (funext fun reduced => ?_))
  by_cases hcap : settings.levels.cap.any (· ≤ number + 1) = true
  · rw [if_pos hcap, if_pos (.inl hcap)]
    rfl
  by_cases hsmaller : reduced.size < current.size
  · rw [if_neg hcap, if_pos hsmaller, if_neg (by simp [hcap, hsmaller])]
    rfl
  · rw [if_neg hcap, if_neg hsmaller, if_pos (.inr hsmaller)]
    rfl

/-- The answer that a climb from the classes of a seed leads to. -/
def Climb.answer (c : Climb W) (seed : Option Partition) : Except Fault (Run W) :=
  match c.result with
  | .error e => return ⟨c.journal, .error e⟩
  | .ok (levels, coarse) => do
    let h ← Hierarchy.ofLevels (← pullBack seed levels) coarse
    return ⟨c.journal, .ok h⟩

/-! ## Runs -/

/-- The network that a run starts from. -/
def startNetwork (net : Network W) (seed : Option (Array Nat)) : Except Fault (Network W) :=
  match seed with
  | some labels => net.condense (.ofLabels labels)
  | none => return net

namespace Solver

theorem runFrom_answer (s : Solver W) (budget : Nat) (seed : Option Partition)
    (base : Network W) : (s.runFrom budget seed base).map (·.1) =
      climb s.settings budget 0 base s.scratch >>= fun c => liftM (c.answer seed) := by
  rw [runFrom]
  cases climb s.settings budget 0 base s.scratch with
  | error e => rfl
  | ok c =>
    obtain ⟨journal, result, scratch⟩ := c
    cases result with
    | error e => rfl
    | ok found =>
      simp only [ok_bind, Climb.answer]
      cases pullBack seed found.1 with
      | error e => rfl
      | ok pulled =>
        simp only [liftM_ok, ok_bind]
        cases Hierarchy.ofLevels pulled found.2 <;> rfl

/-- What a run answers is known from its start and its climb. -/
theorem search_answer (s : Solver W) (budget : Nat) (net : Network W)
    (seed : Option (Array Nat)) : (s.search budget net seed).map (·.1) =
      if net.edgeCount = 0 then liftM (edgelessRun net seed)
      else liftM (startNetwork net seed) >>= fun base =>
        climb s.settings budget 0 base s.scratch >>= fun c =>
          liftM (c.answer (seed.map .ofLabels)) := by
  by_cases hedges : net.edgeCount = 0
  · rw [if_pos hedges, search, if_pos hedges]
    cases edgelessRun net seed <;> rfl
  rw [if_neg hedges]
  cases hstart : startNetwork net seed with
  | error e =>
    cases seed with
    | none => cases hstart
    | some labels =>
      rw [startNetwork] at hstart
      simp only [search, if_neg hedges, Option.map_some, hstart]
      rfl
  | ok base =>
    have hfrom : s.search budget net seed = s.runFrom budget (seed.map .ofLabels) base := by
      cases seed with
      | none =>
        cases hstart
        exact Start.vertices.search_eq hedges
      | some labels => exact (Start.seeded hstart).search_eq hedges
    rw [hfrom, runFrom_answer, liftM_ok, ok_bind]

end Solver

end Communities
