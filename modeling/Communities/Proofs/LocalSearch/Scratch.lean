import Communities.Proofs.LocalSearch.Sweeps

/-!
# The space that a search works in

A search is given space that another one has left, and leaves it to the next. It makes the tally
blank before the first sweep, and every turn clears it again, so nothing of what was in that space
shows in what the search comes to. This holds in any arithmetic.

* `Tally.blank_congr`: blank tallies are the same.
* `Search.run_scratch`: a search does not depend on the space that it is given.
* `Search.offer_eq_ok`: an offer leaves a clear tally, `Search.exists_clear_offer`: at every point
  of a search.
-/

namespace Communities

variable {W : Type} [Weight W]

theorem Tally.blank_congr (t t' : Tally W) (n : Nat) : t.blank n = t'.blank n := by
  rw [blank, blank, reuse_eq, reuse_eq, reuse_eq, reuse_eq]

namespace Search

/-- What a search comes to, without the space that it leaves. -/
def upshot (s : Search W) : List (Sweep W) × Ending × Roster W :=
  (s.sweeps, s.ending, s.roster)

/-- All that a search takes from its space is the space that it leaves, if it makes no sweep. -/
theorem run_scratch (settings : Settings W) (budget : Nat) (net : Network W) (degrees : Degrees W)
    (roster : Roster W) (level : Nat) (scratch scratch' : Scratch W) :
    run settings budget net degrees roster level scratch' =
      (run settings budget net degrees roster level scratch).map fun s =>
        { s with scratch := if 0 < degrees.total then s.scratch else scratch' } := by
  by_cases hpos : 0 < degrees.total
  · rw [run_of_pos hpos, run_of_pos hpos, scratch'.tally.blank_congr scratch.tally]
    simp only [if_pos hpos]
    cases settle ⟨net, degrees, settings.threshold⟩ (settings.order.nodes level net.size) budget
      settings.maxSweeps ⟨roster, scratch.tally.blank roster.capacity⟩ <;> rfl
  · rw [run_of_not_pos hpos, run_of_not_pos hpos]
    simp only [Except.map, if_neg hpos]

/-! ## The tally after an offer -/

variable {t : Terrain W} {w : Walk W} {v : Nat}

/-- So it is clear after every offer that a search makes, wherever that stands, and whichever
communities are still listed from before. -/
theorem exists_clear_offer (h : Ready t w) {vs : List Nat} (hvs : ∀ u ∈ vs, u < t.net.size)
    (hv : v < t.net.size) : ∃ moves w' best tally, turns t w vs = .ok (moves, w') ∧
      (∀ listed, offer t w'.roster { w'.tally with adjacent := listed } v = .ok (best, tally)) ∧
      tally.Clear w'.roster.capacity := by
  obtain ⟨moves, w', hturns, h', -⟩ := turns_eq_ok h hvs
  obtain ⟨tally, hoffer, hclear⟩ := offer_eq_ok h' hv
  exact ⟨moves, w', _, tally, hturns, fun _ => hoffer, hclear⟩

end Search

end Communities
