import Communities.Proofs.LocalSearch.SweepCap
import Communities.Proofs.Solver.Reuse

/-!
# The cap on sweeps in a run

A cap on the sweeps of a level does not show in a run none of whose searches makes more sweeps than
it allows, the last one included that moves no node and leaves no level. Otherwise the run is
rejected at the first level that makes more. This holds in any arithmetic.

* `sweepsAt`: the sweeps of a level that a journal tells of, `Climbs.sweeps_eq`: they are those that
  the levels report.
* `CutShort`: what a cap makes of a climb, `Climbs.cutShort`: a climb with a cap takes the same way
  as one without, up to the first search that makes too many sweeps.
* `Solver.sweep_cap`: searches and runs, with a cap and without.
-/

namespace Communities

/-! ## The sweeps in a journal -/

section Journal

variable {W : Type}

/-- The event tells of a sweep of the level. -/
def Event.isSweepOf (level : Nat) : Event W → Bool
  | .sweep l _ _ _ => l == level
  | _ => false

/-- The number of sweeps of a level that a journal tells of. -/
def sweepsAt (journal : List (Event W)) (level : Nat) : Nat :=
  journal.countP (·.isSweepOf level)

theorem sweepsAt_append (journal journal' : List (Event W)) (level : Nat) :
    sweepsAt (journal ++ journal') level = sweepsAt journal level + sweepsAt journal' level :=
  List.countP_append

private theorem sweepsAt_sweep (s : Sweep W) (number i level : Nat) :
    sweepsAt (s.events number i) level = if number = level then 1 else 0 := by
  have hmoves : sweepsAt (s.moves.map .move) level = 0 := by
    simp [sweepsAt, List.countP_map, Function.comp_def, Event.isSweepOf]
  rw [Sweep.events, sweepsAt_append, hmoves, Nat.zero_add]
  by_cases h : number = level <;> simp [sweepsAt, Event.isSweepOf, h]

theorem sweepsAt_events (s : Search W) (number level : Nat) :
    sweepsAt (s.events number) level = if number = level then s.sweeps.length else 0 := by
  rw [Search.events, ← List.length_zipIdx (l := s.sweeps)]
  induction s.sweeps.zipIdx with
  | nil => simp [sweepsAt]
  | cons first rest ih =>
    rw [List.flatMap_cons, sweepsAt_append, ih, sweepsAt_sweep]
    split <;> simp [Nat.add_comm]

theorem sweepsAt_report (s : Search W) (number : Nat) (current : Network W) (level : Level W)
    (p : Partition) (k : Nat) :
    sweepsAt (s.report number current level p) k = if number = k then s.sweeps.length else 0 := by
  rw [Search.report, sweepsAt_append, sweepsAt_events]
  rfl

end Journal

/-! ## Climbs -/

variable {W : Type} [Weight W] {settings : Settings W} {budget number : Nat} {current : Network W}
  {scratch : Scratch W} {networks : List (Network W)} {found : Climb W} {s : Search W} {c : Nat}

/-- A climb makes no sweep of a level below the one that it starts from. -/
theorem Climbs.sweepsAt_of_lt (h : Climbs settings budget number current scratch networks found)
    {j : Nat} (hj : j < number) : sweepsAt found.journal j = 0 := by
  induction h with
  | capped | rest => exact (sweepsAt_events ..).trans (if_neg (Nat.ne_of_gt hj))
  | still | top => exact (sweepsAt_report ..).trans (if_neg (Nat.ne_of_gt hj))
  | step _ _ _ _ _ _ _ ih =>
    refine (sweepsAt_append ..).trans ?_
    rw [sweepsAt_report, if_neg (Nat.ne_of_gt hj), ih (Nat.lt_succ_of_lt hj)]

theorem Climbs.sweepsAt_cons
    (above : Climbs settings budget (number + 1) current scratch networks found) (s : Search W)
    (below : Network W) (level : Level W) (p : Partition) (j : Nat) :
    sweepsAt (Climb.cons (s.report number below level p) level found).journal j =
      if number = j then s.sweeps.length else sweepsAt found.journal j := by
  refine (sweepsAt_append ..).trans ?_
  rw [sweepsAt_report]
  split
  · next hj => rw [above.sweepsAt_of_lt (hj ▸ Nat.lt_succ_self _), Nat.add_zero]
  · exact Nat.zero_add _

/-- The sweeps of the level that it starts from are those of its search. -/
theorem Climbs.sweepsAt_eq (h : Climbs settings budget number current scratch networks found)
    (hrun : Search.run settings budget current current.degrees (.singletons current.degrees) number
      scratch = .ok s) : sweepsAt found.journal number = s.sweeps.length := by
  cases h with
  | capped ran =>
    cases hrun.symm.trans ran
    exact (sweepsAt_events ..).trans (if_pos rfl)
  | rest ended =>
    cases hrun.symm.trans ended.run_eq
    exact (sweepsAt_events ..).trans (if_pos rfl)
  | still ended | top ended =>
    cases hrun.symm.trans ended.run_eq
    exact (sweepsAt_report ..).trans (if_pos rfl)
  | step ended _ _ _ _ _ above =>
    cases hrun.symm.trans ended.run_eq
    exact (above.sweepsAt_cons ..).trans (if_pos rfl)

theorem Search.sweeps_level {level : Level W} {p : Partition}
    (h : s.level current = .ok (level, p)) : level.sweeps = s.sweeps.length := by
  obtain ⟨-, q, -, rfl⟩ := level_eq_ok_iff.1 h
  rfl

/-- The levels report the sweeps of their searches, after which there is at most one more. -/
theorem Climbs.sweeps_eq (h : Climbs settings budget number current scratch networks found)
    {levels : List (Level W)} {coarse : Option (Network W)}
    (hfound : found.result = .ok (levels, coarse)) :
    (∀ k level, levels[k]? = some level → level.sweeps = sweepsAt found.journal (number + k)) ∧
      ∀ j, number + levels.length < j → sweepsAt found.journal j = 0 := by
  induction h generalizing levels coarse with
  | capped => cases hfound
  | rest =>
    cases hfound
    exact ⟨by simp, fun j hj => (sweepsAt_events ..).trans (if_neg (Nat.ne_of_lt hj))⟩
  | still _ _ scored | top _ _ scored =>
    cases hfound
    refine ⟨fun k level hk => ?_, fun j hj => (sweepsAt_report ..).trans (if_neg ?_)⟩
    · obtain ⟨rfl, rfl⟩ : k = 0 ∧ _ := by simpa [List.getElem?_singleton] using hk
      exact (Search.sweeps_level scored).trans ((sweepsAt_report ..).trans (if_pos rfl)).symm
    · rw [List.length_singleton] at hj
      omega
  | step _ _ scored _ _ _ above ih =>
    obtain ⟨⟨levels, coarse⟩, hresult, hlevels⟩ := map_eq_ok_iff.1 hfound
    cases hlevels
    obtain ⟨hsweeps, hlast⟩ := ih hresult
    refine ⟨fun k level hk => ?_, fun j hj => ?_⟩
    · cases k with
      | zero =>
        cases hk
        exact (Search.sweeps_level scored).trans ((above.sweepsAt_cons ..).trans (if_pos rfl)).symm
      | succ k =>
        rw [above.sweepsAt_cons, if_neg (by omega), hsweeps k level hk, Nat.add_assoc,
          Nat.add_comm 1 k]
    · rw [List.length_cons] at hj
      rw [above.sweepsAt_cons, if_neg (by omega), hlast j (by omega)]

/-- What a climb comes to without a cap on sweeps, and what it comes to with the cap `c`. -/
structure CutShort (c : Nat) (found found' : Climb W) : Prop where
  /-- A climb of which no search makes more sweeps is the same. -/
  of_le : (∀ j, sweepsAt found.journal j ≤ c) → found'.upshot = found.upshot
  /-- Another one is stopped at the first search that does. -/
  of_lt : ∀ j, c < sweepsAt found.journal j → (∀ i < j, sweepsAt found.journal i ≤ c) →
    found'.result = .error (.notConverged j c)

/-- A search with a cap that it does not exceed ends as it does without. -/
theorem Search.Ended.exists_cap
    (h : s.Ended (settings.withMaxSweeps none) budget number current scratch)
    (hle : s.sweeps.length ≤ c) (scratch' : Scratch W) : ∃ space,
      Search.Ended (settings.withMaxSweeps (some c)) budget number current scratch'
        { s with scratch := space } := by
  obtain ⟨⟨sweeps, ending, roster, space⟩, hrun, hsame, -⟩ := run_cap h.run_eq c scratch'
  cases hsame hle
  exact ⟨space, hrun, h.ending_ne⟩

/-- A climb is stopped at once where the search of its first level is, so it is enough to look at
climbs whose first search does not exceed the cap. -/
theorem Climbs.cutShort_of_le
    (h : Climbs (settings.withMaxSweeps none) budget number current scratch networks found)
    (hrun : Search.run (settings.withMaxSweeps none) budget current current.degrees
      (.singletons current.degrees) number scratch = .ok s) (scratch' : Scratch W)
    (hfits : s.sweeps.length ≤ c → ∃ networks' found',
      Climbs (settings.withMaxSweeps (some c)) budget number current scratch' networks' found' ∧
        CutShort c found found') : ∃ networks' found',
      Climbs (settings.withMaxSweeps (some c)) budget number current scratch' networks' found' ∧
        CutShort c found found' := by
  by_cases hle : s.sweeps.length ≤ c
  · exact hfits hle
  have hlt := Nat.lt_of_not_le hle
  obtain ⟨s', hrun', -, hcapped⟩ := Search.run_cap hrun c scratch'
  obtain ⟨hstopped, hsweeps⟩ := hcapped hlt
  have hlength : s'.sweeps.length = c := by
    rw [hsweeps, List.length_take, Nat.min_eq_left (Nat.le_of_lt hlt)]
  have hmore : c < sweepsAt found.journal number := h.sweepsAt_eq hrun ▸ hlt
  refine ⟨_, _, .capped hrun' hstopped, fun hle => absurd (hle number) (Nat.not_le.2 hmore), ?_⟩
  intro j hj hfirst
  obtain hj' | rfl | hj' := Nat.lt_trichotomy j number
  · rw [h.sweepsAt_of_lt hj'] at hj
    exact absurd hj (Nat.not_lt_zero c)
  · rw [hlength]
  · exact absurd (hfirst number hj') (Nat.not_le.2 hmore)

omit [Weight W] in
/-- Nothing is cut short where one search is made, and ends. -/
theorem CutShort.of_one {found found' : Climb W} (h : found'.upshot = found.upshot)
    (hjournal : ∀ j, sweepsAt found.journal j = if number = j then s.sweeps.length else 0)
    (hle : s.sweeps.length ≤ c) : CutShort c found found' := by
  refine ⟨fun _ => h, fun j hj => ?_⟩
  rw [hjournal] at hj
  split at hj <;> omega

omit [Weight W] in
/-- What is cut short above a search that ends is cut short with it. -/
theorem CutShort.cons {above above' : Climb W} {journal : List (Event W)} {level : Level W}
    (h : CutShort c above above')
    (hjournal : ∀ j, sweepsAt (Climb.cons journal level above).journal j =
      if number = j then s.sweeps.length else sweepsAt above.journal j)
    (hbelow : sweepsAt above.journal number = 0) (hle : s.sweeps.length ≤ c) :
    CutShort c (.cons journal level above) (.cons journal level above') := by
  have hfits : ∀ j, sweepsAt (Climb.cons journal level above).journal j ≤ c ↔
      sweepsAt above.journal j ≤ c := by
    intro j
    rw [hjournal]
    split
    · next hj =>
      rw [← hj, hbelow]
      exact iff_of_true hle (Nat.zero_le c)
    · exact Iff.rfl
  refine ⟨fun hall => Climb.upshot_cons (h.of_le fun j => (hfits j).1 (hall j)) .., ?_⟩
  intro j hj hfirst
  have hstopped := h.of_lt j (Nat.not_le.1 (mt (hfits j).2 (Nat.not_le.2 hj)))
    fun i hi => (hfits i).1 (hfirst i hi)
  rw [Climb.cons, hstopped]
  rfl

/-- A climb with a cap takes the way of one without, up to the first search that makes too many
sweeps. -/
theorem Climbs.cutShort
    (h : Climbs (settings.withMaxSweeps none) budget number current scratch networks found)
    (c : Nat) (scratch' : Scratch W) : ∃ networks' found',
      Climbs (settings.withMaxSweeps (some c)) budget number current scratch' networks' found' ∧
        CutShort c found found' := by
  induction h generalizing scratch' with
  | capped ran stopped => exact absurd stopped (Search.ending_ne_capped ran)
  | @rest number _ _ s ended still later =>
    refine (Climbs.rest ended still later).cutShort_of_le ended.run_eq scratch' fun hle => ?_
    obtain ⟨space, hended⟩ := ended.exists_cap hle scratch'
    exact ⟨_, _, .rest hended still later, .of_one rfl (sweepsAt_events s number) hle⟩
  | @still _ _ s _ _ ended still scored =>
    refine (Climbs.still ended still scored).cutShort_of_le ended.run_eq scratch' fun hle => ?_
    obtain ⟨space, hended⟩ := ended.exists_cap hle scratch'
    exact ⟨_, _, .still hended still scored, .of_one rfl (sweepsAt_report s 0 _ _ _) hle⟩
  | @top number _ _ _ s _ _ ended moved scored drawn done =>
    have hfull := Climbs.top ended moved scored drawn done
    refine hfull.cutShort_of_le ended.run_eq scratch' fun hle => ?_
    obtain ⟨space, hended⟩ := ended.exists_cap hle scratch'
    exact ⟨_, _, .top hended moved scored drawn done,
      .of_one rfl (sweepsAt_report s number _ _ _) hle⟩
  | @step number _ _ _ s _ _ _ _ ended moved scored drawn more smaller above ih =>
    have hfull := Climbs.step ended moved scored drawn more smaller above
    refine hfull.cutShort_of_le ended.run_eq scratch' fun hle => ?_
    obtain ⟨space, hended⟩ := ended.exists_cap hle scratch'
    obtain ⟨networks', above', habove', hcut⟩ := ih space
    have hbelow := above.sweepsAt_of_lt (Nat.lt_succ_self number)
    exact ⟨_, _, .step hended moved scored drawn more smaller habove',
      hcut.cons (above.sweepsAt_cons s _ _ _) hbelow hle⟩

/-! ## Runs -/

/-- The settings are in range with any cap but zero. -/
theorem Settings.check_withMaxSweeps (settings : Settings W) (hc : 0 < c) :
    (settings.withMaxSweeps (some c)).check = (settings.withMaxSweeps none).check := by
  have hcap : (settings.withMaxSweeps (some c)).maxSweeps ≠ some 0 := fun h =>
    Nat.ne_of_gt hc (Option.some.inj h)
  have hnone : (settings.withMaxSweeps none).maxSweeps ≠ some 0 := nofun
  rw [check, check, if_neg hcap, if_neg hnone]
  rfl

omit [Weight W] in
theorem sweeps_pullBack {seed : Option Partition} {levels pulled : List (Level W)}
    (h : pullBack seed levels = .ok pulled) : pulled.map (·.sweeps) = levels.map (·.sweeps) := by
  obtain rfl | ⟨first, rest, labels, rfl, rfl⟩ := pullBack_cases h <;> rfl

namespace Solver

variable {net : Network W} {seed : Option (Array Nat)} {run : Run W} {h : Hierarchy W}

/-- The journal of a run tells of the sweeps that the levels report, and of those of one more search
at most. -/
theorem sweeps_eq {s s' : Solver W} (hrun : s.cluster budget net seed = .ok (run, s'))
    (hh : run.result = .ok h) :
    (∀ k level, h.levels[k]? = some level → level.sweeps = sweepsAt run.journal k) ∧
      ∀ j, h.levels.length < j → sweepsAt run.journal j = 0 := by
  obtain ⟨haccepted, -⟩ := cluster_spec hrun hh
  by_cases hedges : net.edgeCount = 0
  · rw [haccepted.cluster_eq, search_edgeless hedges] at hrun
    cases hrun
    cases hh
    refine ⟨fun k level hk => ?_, fun j _ => rfl⟩
    obtain ⟨rfl, rfl⟩ : k = 0 ∧ _ := by simpa [List.getElem?_singleton] using hk
    rfl
  · obtain ⟨base, labels, hstart⟩ := exists_start (haccepted.cluster_eq budget ▸ hrun) hedges
    obtain ⟨networks, found, hclimbs, -, hjournal, hcarried⟩ :=
      (haccepted.cluster_eq_ok_iff hedges hstart).1 hrun
    obtain ⟨levels, hresult, hback⟩ := (hh ▸ hcarried).of_ok
    obtain ⟨hsweeps, hlast⟩ := hclimbs.sweeps_eq hresult
    rw [hjournal]
    refine ⟨fun k level hk => ?_, fun j hj => hlast j ?_⟩
    · have hmap := congrArg (·[k]?) (sweeps_pullBack hback)
      simp only [List.getElem?_map, hk, Option.map_some] at hmap
      obtain ⟨level', hk', hsame⟩ := Option.map_eq_some_iff.1 hmap.symm
      rw [← hsame, hsweeps k level' hk', Nat.zero_add]
    · rwa [Nat.zero_add, ← length_pullBack hback]

theorem exists_capped {scratch : Scratch W} {s : Solver W} (hc : 0 < c)
    (hrun : cluster ⟨settings.withMaxSweeps none, scratch⟩ budget net seed = .ok (run, s))
    (hh : run.result = .ok h) (scratch' : Scratch W) : ∃ run' s',
      cluster ⟨settings.withMaxSweeps (some c), scratch'⟩ budget net seed = .ok (run', s') ∧
        ((∀ j, sweepsAt run.journal j ≤ c) → run' = run) ∧
        ∀ j, c < sweepsAt run.journal j → (∀ i < j, sweepsAt run.journal i ≤ c) →
          run'.result = .error (.notConverged j c) := by
  obtain ⟨haccepted, -⟩ := cluster_spec hrun hh
  have haccepted' : Accepted ⟨settings.withMaxSweeps (some c), scratch'⟩ net seed :=
    ⟨(settings.check_withMaxSweeps hc).trans haccepted.settings_ok, haccepted.seed_ok,
      haccepted.edges_ok⟩
  by_cases hedges : net.edgeCount = 0
  · rw [haccepted.cluster_eq, search_edgeless hedges] at hrun
    cases hrun
    rw [haccepted'.cluster_eq, search_edgeless hedges]
    exact ⟨_, _, rfl, fun _ => rfl, fun j hj => absurd hj (Nat.not_lt_zero c)⟩
  · obtain ⟨base, labels, hstart⟩ := exists_start (haccepted.cluster_eq budget ▸ hrun) hedges
    obtain ⟨networks, found, hclimbs, -, hjournal, hcarried⟩ :=
      (haccepted.cluster_eq_ok_iff hedges hstart).1 hrun
    obtain ⟨networks', found', hclimbs', hcut⟩ := hclimbs.cutShort c scratch'
    have hrun' : ∀ result, Carried (seed.map .ofLabels) found'.result result →
        cluster ⟨settings.withMaxSweeps (some c), scratch'⟩ budget net seed =
          .ok (⟨found'.journal, result⟩, ⟨settings.withMaxSweeps (some c), found'.scratch⟩) :=
      fun result hresult => (haccepted'.cluster_eq_ok_iff hedges hstart).2
        ⟨networks', found', hclimbs', rfl, rfl, hresult⟩
    rw [hjournal]
    by_cases hall : ∀ j, sweepsAt found.journal j ≤ c
    · have hsame := hcut.of_le hall
      rw [Climb.upshot, Climb.upshot, Prod.mk.injEq] at hsame
      refine ⟨_, _, hrun' run.result (hsame.2 ▸ hcarried), fun _ => ?_,
        fun j hj => absurd (hall j) (Nat.not_le.2 hj)⟩
      rw [hsame.1, ← hjournal]
    · obtain ⟨j, hj, hfirst⟩ : ∃ j, c < sweepsAt found.journal j ∧
          ∀ i < j, sweepsAt found.journal i ≤ c := by
        have hexists : ∃ j, c < sweepsAt found.journal j := by simpa using hall
        exact ⟨Nat.find hexists, Nat.find_spec hexists,
          fun i hi => Nat.le_of_not_lt (Nat.find_min hexists hi)⟩
      have hresult := hcut.of_lt j hj hfirst
      refine ⟨_, _, hrun' (.error (.notConverged j c)) (hresult ▸ .rejected _),
        fun h => absurd h hall, fun i hi hbefore => ?_⟩
      have hresult' := hresult.symm.trans (hcut.of_lt i hi hbefore)
      cases hresult'
      rfl

/-- Searches and runs with a cap on sweeps come to what they come to without, or are stopped at the
first search that makes more sweeps. -/
theorem sweep_cap (hc : 0 < c) :
    (∀ (settings : Settings W) (budget : Nat) (net : Network W) (degrees : Degrees W)
      (roster : Roster W) (level : Nat) (scratch scratch' : Scratch W) (s : Search W),
      Search.run (settings.withMaxSweeps none) budget net degrees roster level scratch = .ok s →
      s.stats level = .ok (s.sweeps.length, s.moveCount) ∧
      Search.sweepsFrom settings net degrees roster level s.sweeps.length =
        .ok (s.sweeps, s.roster) ∧
      ∃ s', Search.run (settings.withMaxSweeps (some c)) budget net degrees roster level scratch' =
          .ok s' ∧
        (s.sweeps.length ≤ c → s'.stats level = s.stats level ∧ s'.upshot = s.upshot) ∧
        (c < s.sweeps.length → s'.stats level = .error (.notConverged level c) ∧
          Search.sweepsFrom settings net degrees roster level c =
            .ok (s.sweeps.take c, s'.roster))) ∧
    ∀ (settings : Settings W) (budget : Nat) (net : Network W) (seed : Option (Array Nat))
      (scratch scratch' : Scratch W) (run : Run W) (s : Solver W) (h : Hierarchy W),
      cluster ⟨settings.withMaxSweeps none, scratch⟩ budget net seed = .ok (run, s) →
      run.result = .ok h →
      (∀ k level, h.levels[k]? = some level → level.sweeps = sweepsAt run.journal k) ∧
      (∀ j, h.levels.length < j → sweepsAt run.journal j = 0) ∧
      ∃ run' s', cluster ⟨settings.withMaxSweeps (some c), scratch'⟩ budget net seed =
          .ok (run', s') ∧
        ((∀ j, sweepsAt run.journal j ≤ c) → run' = run) ∧
        ∀ j, c < sweepsAt run.journal j → (∀ i < j, sweepsAt run.journal i ≤ c) →
          run'.result = .error (.notConverged j c) := by
  refine ⟨fun settings budget net degrees roster level scratch scratch' s hrun =>
    Search.stats_cap hrun c scratch', ?_⟩
  intro settings budget net seed scratch scratch' run s h hrun hh
  obtain ⟨hlevels, hlast⟩ := sweeps_eq hrun hh
  exact ⟨hlevels, hlast, exists_capped hc hrun hh scratch'⟩

theorem sweep_cap_pair :
    ∃ run s h run' s', cluster ⟨⟨1 / 10, .multilevel none, .ascending, none, false⟩, .empty⟩ 3
        Network.pair (some #[4, 7]) = .ok (run, s) ∧ run.result = .ok h ∧
      h.levels.map (·.sweeps) = [2] ∧
      cluster ⟨⟨1 / 10, .multilevel none, .ascending, some 1, false⟩, .empty⟩ 3 Network.pair
        (some #[4, 7]) = .ok (run', s') ∧
      run'.result = .error (.notConverged 0 1) := by
  obtain ⟨run, s, h, hrun, hh, hlevels⟩ := cluster_pair
  obtain ⟨hsweeps, -, run', s', hrun', -, hcapped⟩ := (sweep_cap Nat.one_pos).2
    ⟨1 / 10, .multilevel none, .ascending, none, false⟩ 3 Network.pair (some #[4, 7]) .empty .empty
    run s h hrun hh
  have hfirst : sweepsAt run.journal 0 = 2 :=
    (hsweeps 0 ⟨#[0, 0], 0, 2, 1⟩ (by rw [hlevels]; rfl)).symm
  exact ⟨run, s, h, run', s', hrun, hh, by rw [hlevels]; rfl, hrun',
    hcapped 0 (by rw [hfirst]; decide) (by simp)⟩

end Solver

end Communities
