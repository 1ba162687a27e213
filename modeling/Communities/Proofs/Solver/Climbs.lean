import Communities.Solver
import Communities.Proofs.LocalSearch.Sweeps

/-!
# What a climb can come to

A climb goes through its levels in a loop with four exits: the search of a level is stopped by the
cap on its sweeps, a level moves no node, no more levels may be built, or nothing has been drawn
together. Which way a climb takes is said here once, with the budget and the space of each search
and with the networks that are drawn together on the way.

* `Search.Ended`: a search that was not stopped.
* `Climbs`: the ways of a climb, exit by exit; `climb_eq_ok_iff`: these are all there are.
* `Climbs.mono`: a larger budget changes nothing, `Climbs.exists_rejection`: a climb is only ever
  rejected at one of its own levels, `Climbs.coarse_eq`: it ends with the last network it has come
  to.
-/

namespace Communities

variable {W : Type} [Weight W]

namespace Search

theorem level_eq_ok_iff {s : Search W} {net : Network W} {level : Level W} {p : Partition} :
    s.level net = .ok (level, p) ↔ p = s.roster.toPartition ∧
      ∃ q, modularityByBlocks net p = .ok q ∧
        level = ⟨p.labels, q, s.sweeps.length, s.moveCount⟩ := by
  rw [Search.level]
  constructor
  · intro h
    obtain ⟨q, hq, h⟩ := bind_eq_ok_iff.1 h
    cases h
    exact ⟨rfl, q, hq, rfl⟩
  · rintro ⟨rfl, q, hq, rfl⟩
    rw [hq]
    rfl

theorem moves_level {s : Search W} {net : Network W} {level : Level W} {p : Partition}
    (h : s.level net = .ok (level, p)) : level.moves = s.moveCount := by
  obtain ⟨-, q, -, rfl⟩ := level_eq_ok_iff.1 h
  rfl

/-- The search of level `number` from single nodes, which the cap on sweeps has not stopped. -/
structure Ended (settings : Settings W) (budget number : Nat) (current : Network W)
    (scratch : Scratch W) (s : Search W) : Prop where
  /-- The search is the one of that level. -/
  run_eq : run settings budget current current.degrees (.singletons current.degrees) number
    scratch = .ok s
  /-- It was not stopped. -/
  ending_ne : s.ending ≠ .capped

/-- The entries for a level that is kept: those for its search, and the report. -/
def report (s : Search W) (number : Nat) (current : Network W) (level : Level W) (p : Partition) :
    List (Event W) :=
  s.events number ++
    [.level number current.size p.count level.moves level.sweeps level.modularity]

end Search

/-- The ways of a climb from level `number` on, of which `current` is the network: the networks that
it draws together, the lowest first, and what it comes to. -/
inductive Climbs (settings : Settings W) (budget : Nat) :
    Nat → Network W → Scratch W → List (Network W) → Climb W → Prop
  /-- The cap on sweeps stops a search. -/
  | capped {number : Nat} {current : Network W} {scratch : Scratch W} {s : Search W}
      (ran : Search.run settings budget current current.degrees (.singletons current.degrees)
        number scratch = .ok s)
      (stopped : s.ending = .capped) :
    Climbs settings budget number current scratch []
      ⟨s.events number, .error (.notConverged number s.sweeps.length), s.scratch⟩
  /-- A later level moves no node, and is not kept. -/
  | rest {number : Nat} {current : Network W} {scratch : Scratch W} {s : Search W}
      (ended : s.Ended settings budget number current scratch) (still : s.moveCount = 0)
      (later : 0 < number) :
    Climbs settings budget number current scratch []
      (.last (s.events number) [] (some current) s.scratch)
  /-- The first level moves no node, and is kept. -/
  | still {current : Network W} {scratch : Scratch W} {s : Search W} {level : Level W}
      {p : Partition} (ended : s.Ended settings budget 0 current scratch)
      (still : s.moveCount = 0) (scored : s.level current = .ok (level, p)) :
    Climbs settings budget 0 current scratch []
      (.last (s.report 0 current level p) [level] none s.scratch)
  /-- No more levels may be built, or nothing has been drawn together. -/
  | top {number : Nat} {current reduced : Network W} {scratch : Scratch W} {s : Search W}
      {level : Level W} {p : Partition} (ended : s.Ended settings budget number current scratch)
      (moved : s.moveCount ≠ 0) (scored : s.level current = .ok (level, p))
      (drawn : current.condense p = .ok reduced)
      (done : settings.levels.cap.any (· ≤ number + 1) ∨ ¬reduced.size < current.size) :
    Climbs settings budget number current scratch [reduced]
      (.last (s.report number current level p) [level] (some reduced) s.scratch)
  /-- The climb goes on with the communities of a level. -/
  | step {number : Nat} {current reduced : Network W} {scratch : Scratch W} {s : Search W}
      {level : Level W} {p : Partition} {networks : List (Network W)} {c : Climb W}
      (ended : s.Ended settings budget number current scratch) (moved : s.moveCount ≠ 0)
      (scored : s.level current = .ok (level, p)) (drawn : current.condense p = .ok reduced)
      (more : ¬settings.levels.cap.any (· ≤ number + 1)) (smaller : reduced.size < current.size)
      (above : Climbs settings budget (number + 1) reduced s.scratch networks c) :
    Climbs settings budget number current scratch (reduced :: networks)
      (.cons (s.report number current level p) level c)

variable {settings : Settings W} {budget number : Nat} {current : Network W} {scratch : Scratch W}
  {networks : List (Network W)} {c : Climb W}

private theorem exists_climbs (h : climb settings budget number current scratch = .ok c) :
    ∃ networks, Climbs settings budget number current scratch networks c := by
  induction hn : current.size using Nat.strong_induction_on
    generalizing number current scratch c with
  | _ n ih =>
  subst hn
  rw [climb] at h
  obtain ⟨s, hrun, h⟩ := bind_eq_ok_iff.1 h
  dsimp only at h
  by_cases hcapped : s.ending = .capped
  · rw [if_pos hcapped] at h
    cases h
    exact ⟨_, .capped hrun hcapped⟩
  have hended : s.Ended settings budget number current scratch := ⟨hrun, hcapped⟩
  rw [if_neg hcapped] at h
  by_cases hrest : s.moveCount = 0 ∧ 0 < number
  · rw [if_pos hrest] at h
    cases h
    exact ⟨_, .rest hended hrest.1 hrest.2⟩
  rw [if_neg hrest] at h
  obtain ⟨⟨level, p⟩, hscored, h⟩ := bind_eq_ok_iff.1 h
  rw [liftM_eq_ok_iff] at hscored
  have hmoves := Search.moves_level hscored
  dsimp only at h
  by_cases hstill : level.moves = 0
  · rw [if_pos hstill] at h
    cases h
    have hnumber : number = 0 := by
      rw [hmoves] at hstill
      exact Nat.eq_zero_of_not_pos fun hpos => hrest ⟨hstill, hpos⟩
    subst hnumber
    exact ⟨_, .still hended (hmoves ▸ hstill) hscored⟩
  rw [if_neg hstill] at h
  have hmoved : s.moveCount ≠ 0 := hmoves ▸ hstill
  obtain ⟨reduced, hdrawn, h⟩ := bind_eq_ok_iff.1 h
  rw [liftM_eq_ok_iff] at hdrawn
  by_cases hcap : settings.levels.cap.any (· ≤ number + 1) = true
  · rw [if_pos hcap] at h
    cases h
    exact ⟨_, .top hended hmoved hscored hdrawn (.inl hcap)⟩
  rw [if_neg hcap] at h
  by_cases hsmaller : reduced.size < current.size
  · rw [if_pos hsmaller] at h
    obtain ⟨above, habove, h⟩ := bind_eq_ok_iff.1 h
    cases h
    obtain ⟨networks, hclimbs⟩ := ih _ hsmaller habove rfl
    exact ⟨_, .step hended hmoved hscored hdrawn hcap hsmaller hclimbs⟩
  · rw [if_neg hsmaller] at h
    cases h
    exact ⟨_, .top hended hmoved hscored hdrawn (.inr hsmaller)⟩

private theorem Climbs.climb_eq (h : Climbs settings budget number current scratch networks c) :
    climb settings budget number current scratch = .ok c := by
  induction h with
  | capped ran stopped =>
    rw [climb, ran, ok_bind]
    exact if_pos stopped
  | rest ended still later =>
    rw [climb, ended.run_eq, ok_bind]
    dsimp only
    rw [if_neg ended.ending_ne]
    exact if_pos ⟨still, later⟩
  | still ended still scored =>
    rw [climb, ended.run_eq, ok_bind]
    dsimp only
    rw [if_neg ended.ending_ne, if_neg (fun h => Nat.lt_irrefl 0 h.2), scored, liftM_ok, ok_bind]
    exact if_pos ((Search.moves_level scored).trans still)
  | top ended moved scored drawn done =>
    have hmoves := Search.moves_level scored
    rw [climb, ended.run_eq, ok_bind]
    dsimp only
    rw [if_neg ended.ending_ne, if_neg (fun h => moved h.1), scored, liftM_ok, ok_bind]
    dsimp only
    rw [if_neg (hmoves ▸ moved), drawn, liftM_ok, ok_bind]
    split
    · rfl
    · next hcap => exact if_neg (done.resolve_left hcap)
  | step ended moved scored drawn more smaller _ ih =>
    have hmoves := Search.moves_level scored
    rw [climb, ended.run_eq, ok_bind]
    dsimp only
    rw [if_neg ended.ending_ne, if_neg (fun h => moved h.1), scored, liftM_ok, ok_bind]
    dsimp only
    rw [if_neg (hmoves ▸ moved), drawn, liftM_ok, ok_bind, if_neg more, if_pos smaller, ih]
    rfl

/-- A climb takes one of these ways. -/
theorem climb_eq_ok_iff : climb settings budget number current scratch = .ok c ↔
    ∃ networks, Climbs settings budget number current scratch networks c :=
  ⟨exists_climbs, fun ⟨_, h⟩ => h.climb_eq⟩

/-! ## All ways -/

namespace Climbs

/-- All ways of a climb come to the same. -/
theorem unique {networks' : List (Network W)} {c' : Climb W}
    (h : Climbs settings budget number current scratch networks c)
    (h' : Climbs settings budget number current scratch networks' c') : c = c' :=
  Except.ok.inj (h.climb_eq.symm.trans h'.climb_eq)

theorem mono {budget' : Nat} (hle : budget ≤ budget')
    (h : Climbs settings budget number current scratch networks c) :
    Climbs settings budget' number current scratch networks c := by
  have hended : ∀ {number : Nat} {current : Network W} {scratch : Scratch W} {s : Search W},
      s.Ended settings budget number current scratch →
        s.Ended settings budget' number current scratch := fun h =>
    ⟨Search.run_mono hle h.run_eq, h.ending_ne⟩
  induction h with
  | capped ran stopped => exact .capped (Search.run_mono hle ran) stopped
  | rest ended still later => exact .rest (hended ended) still later
  | still ended still scored => exact .still (hended ended) still scored
  | top ended moved scored drawn done => exact .top (hended ended) moved scored drawn done
  | step ended moved scored drawn more smaller _ ih =>
    exact .step (hended ended) moved scored drawn more smaller ih

/-- A climb is only rejected where a search was stopped, at one of its own levels. -/
theorem exists_rejection (h : Climbs settings budget number current scratch networks c)
    {e : Rejection W} (he : c.result = .error e) :
    ∃ j sweeps, e = .notConverged j sweeps ∧ number ≤ j := by
  induction h with
  | capped => cases he; exact ⟨_, _, rfl, Nat.le_refl _⟩
  | rest => cases he
  | still => cases he
  | top => cases he
  | step _ _ _ _ _ _ _ ih =>
    obtain ⟨j, sweeps, hj, hle⟩ := ih (map_eq_error_iff.1 he)
    exact ⟨j, sweeps, hj, Nat.le_of_succ_le hle⟩

/-- Where no level is kept there is nothing but the network that the climb has started from. -/
theorem coarse_of_nil (h : Climbs settings budget number current scratch networks c)
    {coarse : Option (Network W)} (hc : c.result = .ok ([], coarse)) : coarse = some current := by
  cases h with
  | capped => cases hc
  | rest => cases hc; rfl
  | still => cases hc
  | top => cases hc
  | step =>
    obtain ⟨found, -, hcons⟩ := map_eq_ok_iff.1 hc
    cases hcons

/-- A climb ends with the last network it has come to, if that is not the one of level zero. -/
theorem coarse_eq (h : Climbs settings budget number current scratch networks c)
    {levels : List (Level W)} {coarse : Option (Network W)} (hc : c.result = .ok (levels, coarse)) :
    coarse = (if number = 0 then networks else current :: networks).getLast? := by
  induction h generalizing levels coarse with
  | capped => cases hc
  | rest _ _ later => cases hc; rw [if_neg (Nat.ne_of_gt later)]; rfl
  | still => cases hc; rfl
  | top => cases hc; split <;> rfl
  | step _ _ _ _ _ _ _ ih =>
    obtain ⟨⟨levels', coarse'⟩, hresult, hlevels⟩ := map_eq_ok_iff.1 hc
    cases hlevels
    rw [ih hresult, if_neg (Nat.succ_ne_zero _)]
    split
    · rfl
    · rw [List.getLast?_cons_cons]

end Climbs

end Communities
