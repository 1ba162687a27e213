import Communities.Proofs.Solver.TrueScore

/-!
# Fewer levels

A cap on the number of levels is looked at only after a level has been built, so it does not show in
the levels that it lets through: a run with a cap gives the first levels of the run without one. If
the run without a cap fails, the cap decides whether the run comes to that level. This holds in any
arithmetic.

* `Curtailed`: what a cap makes of what a climb comes to; `Climbs.curtailed`: a climb with a cap
  takes the same way as one without, up to there.
* `Solver.cluster_curtailed`: so does a run.
-/

namespace Communities

variable {W : Type}

/-- The settings with another number of levels to build. -/
def Settings.withLevels (settings : Settings W) (policy : LevelPolicy) : Settings W :=
  { settings with levels := policy }

/-! ## A climb -/

/-- What a climb from level `number` on comes to without a cap, and what it comes to if no level
from number `k` on is built. -/
inductive Curtailed (k number : Nat) :
    Except (Rejection W) (List (Level W) × Option (Network W)) →
      Except (Rejection W) (List (Level W) × Option (Network W)) → Prop
  /-- The climb ends before that by itself, or with the last level that may be built. -/
  | whole {levels : List (Level W)} {coarse : Option (Network W)}
      (fits : number + levels.length ≤ k) :
    Curtailed k number (.ok (levels, coarse)) (.ok (levels, coarse))
  /-- The climb has more levels, of which the first are left. -/
  | short {levels : List (Level W)} {coarse coarse' : Option (Network W)}
      (more : k < number + levels.length) :
    Curtailed k number (.ok (levels, coarse)) (.ok (levels.take (k - number), coarse'))
  /-- The search of a level that is also built with the cap is stopped. -/
  | stopped {j sweeps : Nat} (before : j < k) :
    Curtailed k number (.error (.notConverged j sweeps)) (.error (.notConverged j sweeps))
  /-- The search that would be stopped is not made. -/
  | spared {j sweeps : Nat} {levels : List (Level W)} {coarse : Option (Network W)}
      (after : k ≤ j) (length_eq : levels.length = k - number) :
    Curtailed k number (.error (.notConverged j sweeps)) (.ok (levels, coarse))

theorem Curtailed.cons {k number : Nat} {level : Level W}
    {found found' : Except (Rejection W) (List (Level W) × Option (Network W))}
    (h : Curtailed k (number + 1) found found') (hlt : number + 1 < k) :
    Curtailed k number (found.map fun (levels, coarse) => (level :: levels, coarse))
      (found'.map fun (levels, coarse) => (level :: levels, coarse)) := by
  cases h with
  | whole fits => exact .whole (by rw [List.length_cons]; omega)
  | @short levels _ _ more =>
    have htake : level :: levels.take (k - (number + 1)) = (level :: levels).take (k - number) := by
      rw [← List.take_succ_cons]
      congr 1
      omega
    dsimp only [Except.map]
    rw [htake]
    exact .short (by rw [List.length_cons]; omega)
  | stopped before => exact .stopped before
  | spared after length_eq => exact .spared after (by rw [List.length_cons]; omega)

variable [Weight W]

section Climb

variable {settings : Settings W} {policy : LevelPolicy} {budget k number : Nat}
  {current : Network W} {scratch : Scratch W} {networks : List (Network W)} {c : Climb W}

/-- The search of a level does not know how many levels may be built. -/
theorem Search.Ended.withLevels {s : Search W}
    (h : s.Ended settings budget number current scratch) (policy : LevelPolicy)
    (scratch' : Scratch W) : ∃ space,
      Search.Ended (settings.withLevels policy) budget number current scratch'
        { s with scratch := space } := by
  obtain ⟨space, hrun⟩ :=
    Search.run_congr (settings.withLevels policy) rfl rfl rfl h.run_eq scratch'
  exact ⟨space, hrun, h.ending_ne⟩

/-- Nor does it know its number, where the nodes take their turns by ascending id. -/
theorem Search.Ended.renumbered {s : Search W} (horder : settings.order = .ascending)
    (h : s.Ended settings budget number current scratch) (number' : Nat) (scratch' : Scratch W) :
    ∃ space, Search.Ended settings budget number' current scratch' { s with scratch := space } := by
  have hnodes : settings.order.nodes number' current.size =
      settings.order.nodes number current.size := by
    rw [horder]
    rfl
  obtain ⟨space, hrun⟩ := Search.run_congr settings rfl rfl hnodes h.run_eq scratch'
  exact ⟨space, hrun, h.ending_ne⟩

/-- Where the next level is the last that may be built, a climb ends with it. -/
theorem Climbs.curtailed_last (h : Climbs settings budget (number + 1) current scratch networks c)
    (level : Level W) : Curtailed (number + 1) number
      (c.result.map fun (levels, coarse) => (level :: levels, coarse))
      (.ok ([level], some current)) := by
  cases hresult : c.result with
  | error e =>
    obtain ⟨j, sweeps, rfl, hle⟩ := h.exists_rejection hresult
    exact .spared hle (by simp)
  | ok found =>
    obtain ⟨levels, coarse⟩ := found
    cases levels with
    | nil =>
      rw [h.coarse_of_nil hresult]
      exact .whole (by simp)
    | cons next levels =>
      have hfirst : [level] = (level :: next :: levels).take (number + 1 - number) := by
        rw [Nat.add_sub_cancel_left]
        rfl
      rw [hfirst]
      exact .short (by simp only [List.length_cons]; omega)

/-- A climb with a cap takes the way of one without, up to the last level that may be built. -/
theorem Climbs.curtailed (hnone : settings.levels.cap = none) (hpolicy : policy.cap = some k)
    (h : Climbs settings budget number current scratch networks c) (hlt : number < k)
    (scratch' : Scratch W) : ∃ networks' c',
      Climbs (settings.withLevels policy) budget number current scratch' networks' c' ∧
        Curtailed k number c.result c'.result := by
  have hcap : ∀ {number : Nat}, (settings.withLevels policy).levels.cap.any (· ≤ number + 1) ↔
      k ≤ number + 1 := by
    simp [Settings.withLevels, hpolicy]
  induction h generalizing scratch' with
  | capped ran stopped =>
    obtain ⟨space, hrun⟩ := Search.run_congr (settings.withLevels policy) rfl rfl rfl ran scratch'
    exact ⟨_, _, .capped hrun stopped, .stopped hlt⟩
  | rest ended still later =>
    obtain ⟨space, hended⟩ := ended.withLevels policy scratch'
    exact ⟨_, _, .rest hended still later, .whole (Nat.le_of_lt hlt)⟩
  | still ended still scored =>
    obtain ⟨space, hended⟩ := ended.withLevels policy scratch'
    exact ⟨_, _, .still hended still scored, .whole hlt⟩
  | top ended moved scored drawn done =>
    obtain ⟨space, hended⟩ := ended.withLevels policy scratch'
    have hsmaller := done.resolve_left (by simp [hnone])
    exact ⟨_, _, .top hended moved scored drawn (.inr hsmaller), .whole hlt⟩
  | @step number _ reduced _ _ level _ _ c ended moved scored drawn _ smaller above ih =>
    obtain ⟨space, hended⟩ := ended.withLevels policy scratch'
    by_cases hlast : k ≤ number + 1
    · obtain rfl : k = number + 1 := by omega
      exact ⟨_, _, .top hended moved scored drawn (.inl (hcap.2 hlast)),
        above.curtailed_last level⟩
    · have hmore : number + 1 < k := Nat.lt_of_not_le hlast
      obtain ⟨networks', c', hclimbs, hcut⟩ := ih hmore space
      exact ⟨_, _, .step hended moved scored drawn (fun h => hlast (hcap.1 h)) smaller hclimbs,
        hcut.cons hmore⟩

end Climb

/-! ## A run -/

omit [Weight W] in
/-- Only the first level is carried back, so the later ones can be left out before or after. -/
theorem pullBack_take {seed : Option Partition} {levels pulled : List (Level W)} {k : Nat}
    (hk : 0 < k) (h : pullBack seed levels = .ok pulled) :
    pullBack seed (levels.take k) = .ok (pulled.take k) := by
  obtain ⟨k, rfl⟩ : ∃ n, k = n + 1 := ⟨k - 1, by omega⟩
  cases seed with
  | none => cases h; rfl
  | some p =>
    cases levels with
    | nil => cases h; rfl
    | cons first rest =>
      obtain ⟨labels, hlabels, h⟩ := bind_eq_ok_iff.1 h
      cases h
      rw [List.take_succ_cons, pullBack, hlabels]
      rfl

/-- The settings are in range with any number of levels but zero. -/
theorem Settings.check_withLevels {settings : Settings W} {policy : LevelPolicy}
    (h : settings.levels ≠ .multilevel (some 0)) (hpolicy : policy ≠ .multilevel (some 0)) :
    (settings.withLevels policy).check = settings.check := by
  have hlevels : (settings.withLevels policy).levels ≠ .multilevel (some 0) := hpolicy
  rw [check, check, if_neg h, if_neg hlevels]
  rfl

namespace Solver

variable {settings : Settings W} {policy : LevelPolicy} {budget k : Nat} {net base : Network W}
  {seed : Option (Array Nat)} {labels : Array Nat}

/-- What a run gives without a cap on its levels, and what it gives if only `k` of them may be
built. -/
structure Shortened (k : Nat) (result result' : Except (Rejection W) (Hierarchy W)) : Prop where
  /-- The first levels are left, and the network too if those are all. -/
  of_ok : ∀ h, result = .ok h → ∃ h', result' = .ok h' ∧ h'.levels = h.levels.take k ∧
    (h.levels.length ≤ k → h'.coarse = h.coarse)
  /-- A rejection stays, unless it is at a level that is not built. -/
  of_error : ∀ e, result = .error e → (∀ j sweeps, e = .notConverged j sweeps → j < k) →
    result' = .error e
  /-- If it is there are as many levels as may be built. -/
  of_notConverged : ∀ j sweeps, result = .error (.notConverged j sweeps) → k ≤ j →
    ∃ h', result' = .ok h' ∧ h'.levels.length = k

omit [Weight W] in
theorem Shortened.refl {result : Except (Rejection W) (Hierarchy W)}
    (hlevels : ∀ h, result = .ok h → h.levels.length ≤ k)
    (hrejection : ∀ j sweeps, result = .error (.notConverged j sweeps) → j < k) :
    Shortened k result result where
  of_ok h hh := ⟨h, hh, (List.take_of_length_le (hlevels h hh)).symm, fun _ => rfl⟩
  of_error _ he _ := he
  of_notConverged j sweeps he hle := absurd (hrejection j sweeps he) (Nat.not_lt.2 hle)

end Solver

open Solver in
omit [Weight W] in
theorem Curtailed.shortened {seed : Option Partition} {k : Nat} (hk : 0 < k)
    {found found' : Except (Rejection W) (List (Level W) × Option (Network W))}
    (h : Curtailed k 0 found found') {result : Except (Rejection W) (Hierarchy W)}
    (hcarried : Carried seed found result)
    (hback : ∀ levels coarse, found' = .ok (levels, coarse) →
      ∃ first rest, pullBack seed levels = .ok (first :: rest)) :
    ∃ result', Carried seed found' result' ∧ Shortened k result result' := by
  cases h with
  | whole fits =>
    cases hcarried with
    | answered back kept =>
      refine ⟨_, .answered back kept, .refl ?_ (by simp)⟩
      rintro h ⟨⟩
      rw [length_pullBack back]
      omega
  | stopped before =>
    cases hcarried
    refine ⟨_, .rejected _, .refl (by simp) ?_⟩
    rintro j sweeps ⟨⟩
    exact before
  | short more =>
    cases hcarried with
    | @answered levels pulled coarse back kept =>
      have hlong : ¬pulled.length ≤ k := by rw [length_pullBack back]; omega
      have htake : pulled.take k ≠ [] := by simp [kept]; omega
      refine ⟨_, .answered (pullBack_take hk back) htake, ⟨?_, by simp, by simp⟩⟩
      rintro h ⟨⟩
      exact ⟨_, rfl, rfl, fun hle => absurd hle hlong⟩
  | @spared j sweeps levels coarse after length_eq =>
    cases hcarried
    obtain ⟨first, rest, back⟩ := hback levels coarse rfl
    refine ⟨_, .answered back (List.cons_ne_nil _ _), ⟨by simp, ?_, ?_⟩⟩
    · rintro e ⟨⟩ hlt
      exact absurd (hlt j sweeps rfl) (Nat.not_lt.2 after)
    · rintro j' sweeps' ⟨⟩ -
      exact ⟨_, rfl, (length_pullBack back).trans length_eq⟩

namespace Solver

variable {settings : Settings W} {policy : LevelPolicy} {budget k : Nat} {net : Network W}
  {seed : Option (Array Nat)}

/-- No check is about a level. -/
theorem checks_ne_notConverged {s : Solver W} {j sweeps : Nat} :
    (do s.settings.check; checkSeed net.size seed; checkEdges net.edges) ≠
      .error (.notConverged j sweeps) := by
  intro h
  rcases bind_eq_error_iff.1 h with h | ⟨_, -, h⟩
  · rw [Settings.check] at h
    split at h <;> try cases h
    split at h <;> try cases h
    split at h <;> cases h
  rcases bind_eq_error_iff.1 h with h | ⟨_, -, h⟩
  · cases seed with
    | none => cases h
    | some labels =>
      rw [checkSeed] at h
      split at h <;> cases h
  · rw [checkEdges] at h
    split at h <;> cases h

theorem Accepted.withLevels {scratch : Scratch W} (h : Accepted ⟨settings, scratch⟩ net seed)
    (hlevels : settings.levels = .multilevel none) (hpolicy : policy ≠ .multilevel (some 0))
    (scratch' : Scratch W) : Accepted ⟨settings.withLevels policy, scratch'⟩ net seed where
  settings_ok := (Settings.check_withLevels (by simp [hlevels]) hpolicy).trans h.settings_ok
  seed_ok := h.seed_ok
  edges_ok := h.edges_ok

/-- What is searched with the cap comes to the first levels. -/
private theorem Accepted.exists_shortened (hnet : net.Canonical) {scratch : Scratch W}
    (haccepted : Accepted ⟨settings, scratch⟩ net seed) {scratch' : Scratch W}
    (haccepted' : Accepted ⟨settings.withLevels policy, scratch'⟩ net seed)
    (hlevels : settings.levels.cap = none) (hpolicy : policy.cap = some k) (hk : 0 < k)
    {run : Run W} {s : Solver W}
    (hrun : cluster ⟨settings, scratch⟩ budget net seed = .ok (run, s)) :
    ∃ run' s', cluster ⟨settings.withLevels policy, scratch'⟩ budget net seed = .ok (run', s') ∧
      Shortened k run.result run'.result := by
  by_cases hedges : net.edgeCount = 0
  · rw [haccepted.cluster_eq, search_edgeless hedges] at hrun
    cases hrun
    rw [haccepted'.cluster_eq, search_edgeless hedges]
    refine ⟨_, _, rfl, .refl ?_ (by simp)⟩
    rintro h ⟨⟩
    exact hk
  · obtain ⟨base, labels, hstart⟩ := exists_start_of_checkSeed hnet haccepted.seed_ok
    obtain ⟨networks, c, hclimbs, -, -, hcarried⟩ :=
      (haccepted.cluster_eq_ok_iff hedges hstart).1 hrun
    obtain ⟨networks', c', hclimbs', hcut⟩ := hclimbs.curtailed hlevels hpolicy hk scratch'
    obtain ⟨result', hcarried', hshortened⟩ := hcut.shortened hk hcarried
      fun levels coarse hc => hstart.exists_pullBack hnet haccepted.seed_ok (hclimbs'.ascent hc)
    exact ⟨⟨c'.journal, result'⟩, _, (haccepted'.cluster_eq_ok_iff hedges hstart).2
      ⟨networks', c', hclimbs', rfl, rfl, hcarried'⟩, hshortened⟩

/-- A run with a cap on its levels gives the first levels of the run that has none. The two runs may
differ in nothing else, and in the space they reuse. -/
theorem cluster_curtailed (hnet : net.Built) (hlevels : settings.levels = .multilevel none)
    (hpolicy : policy.cap = some k) (hk : 0 < k) {scratch : Scratch W} {run : Run W}
    {s : Solver W} (hrun : cluster ⟨settings, scratch⟩ budget net seed = .ok (run, s))
    (scratch' : Scratch W) :
    ∃ run' s', cluster ⟨settings.withLevels policy, scratch'⟩ budget net seed = .ok (run', s') ∧
      Shortened k run.result run'.result := by
  have hsome : policy ≠ .multilevel (some 0) := by
    rintro rfl
    cases hpolicy
    exact Nat.lt_irrefl 0 hk
  cases hchecks : (do settings.check; checkSeed net.size seed; checkEdges net.edges) with
  | error e =>
    have hcheck : (settings.withLevels policy).check = settings.check :=
      Settings.check_withLevels (by simp [hlevels]) hsome
    rw [cluster_of_refused (s := ⟨settings, scratch⟩) hchecks] at hrun
    cases hrun
    rw [cluster_of_refused (s := ⟨settings.withLevels policy, scratch'⟩) (hcheck ▸ hchecks)]
    refine ⟨_, _, rfl, .refl (by simp) ?_⟩
    rintro j sweeps ⟨⟩
    exact absurd hchecks (checks_ne_notConverged (s := ⟨settings, scratch⟩))
  | ok =>
    have haccepted : Accepted ⟨settings, scratch⟩ net seed := accepted_iff.2 hchecks
    exact haccepted.exists_shortened hnet.canonical (haccepted.withLevels hlevels hsome scratch')
      (by rw [hlevels]; rfl) hpolicy hk hrun

theorem cluster_curtailed_kite :
    ∃ run s h, (ofSettings ⟨1 / 1000, .multilevel none, .ascending, none, false⟩ :
        Solver ℚ).cluster 2 Network.kite none = .ok (run, s) ∧ run.result = .ok h ∧
      h.levels.map (·.labels) = [#[1, 0, 0, 1], #[0, 0]] ∧
      ∃ run' s', (ofSettings ⟨1 / 1000, .single, .ascending, none, false⟩ : Solver ℚ).cluster 2
        Network.kite none = .ok (run', s') ∧ Shortened 1 run.result run'.result := by
  obtain ⟨run, s, h, hrun, hh, hlevels⟩ := cluster_kite
  have hcap : LevelPolicy.single.cap = some 1 := rfl
  exact ⟨run, s, h, hrun, hh, by rw [hlevels]; rfl,
    cluster_curtailed Network.built_kite rfl hcap Nat.one_pos hrun .empty⟩

end Solver

end Communities
