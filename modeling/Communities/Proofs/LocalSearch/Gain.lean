import Communities.Proofs.LocalSearch.Sweeps
import Communities.Proofs.Roster.Sums
import Mathlib.Data.List.MinMax

/-!
# What a search gains

In exact arithmetic the gain of a move, computed from the tally and the degree sums, is the change
of modularity that the move makes. So what a search gains in all is the sum of the gains of its
moves, each of which is above the threshold.

* `Terrain.gainAt_eq`: the gain of a move is the difference of two qualities.
* `Search.Settled.quality_sub`: the gains of a search add up.
* `Search.Took.mul_lt_quality_sub` and `Search.Settled.mul_lt_quality_sub`: so turns that move any
  node gain more than the threshold for each of their moves.
* `Search.run_consistent`: a search leaves a consistent roster.
-/

namespace Communities

variable {K : Type} [Field K] [LinearOrder K]

theorem Network.linkTo_eq {net : Network K} (hnet : net.Canonical) {r : Roster K} {v : Nat}
    (hv : v < net.size) (c : Nat) :
    net.linkTo r v c = linkWeight net.edges r.communityAt v c := by
  rw [linkTo, Weight.sum_eq, weightsTo, linksOut, List.filter_map, List.map_map, List.filter_filter,
    ← sum_filter_row hnet hv]
  congr 2
  exact List.filter_congr fun link _ => by simp [Bool.and_comm]

variable {t : Terrain K} {r r' : Roster K}

theorem Terrain.Sound.indexes (ht : t.Sound) (hr : r.Consistent t.degrees) :
    r.Indexes t.net.size := by
  rw [ht.degrees_eq] at hr
  exact ((Roster.consistent_iff ht.canonical).1 hr).1

theorem Terrain.gainAt_eq (ht : t.Sound) (hr : r.Consistent t.degrees) {v c : Nat}
    (hv : v < t.net.size) (hc : c < r.capacity) (hne : r.communityAt v ≠ c) :
    t.gainAt r v c = quality t.net.edges (Function.update r.communityAt v c) -
      quality t.net.edges r.communityAt := by
  have hnet := ht.canonical
  rw [ht.degrees_eq] at hr
  have htotal : t.degrees.total = volume t.net.edges := by rw [ht.degrees_eq, hnet.total_eq]
  have hdegree : t.degrees.degreeAt v = nodeEnds t.net.edges v := by
    rw [ht.degrees_eq, hnet.degreeAt_eq hv]
  obtain ⟨hindexes, hsum⟩ := (Roster.consistent_iff hnet).1 hr
  have hm : volume t.net.edges ≠ 0 := htotal ▸ ne_of_gt ht.total_pos
  rw [quality_update hm hne, gainAt, htotal, hdegree, hsum c hc,
    hsum _ (hindexes.communityAt_lt v hv), Network.linkTo_eq hnet hv, Network.linkTo_eq hnet hv,
    Weight.two_eq (K := K)]

/-- The best offer is the first of the largest gain. -/
theorem Terrain.best_eq_argmax (t : Terrain K) (r : Roster K) (v : Nat) :
    t.best r v = (t.offers r v).argmax Offer.gain := by
  rw [best, List.argmax]
  congr 1
  funext held o
  cases held <;> rfl

namespace Search

/-! ## The gain of a turn -/

section Turn

variable {v : Nat} {move : Option (Move K)}

theorem Turned.consistent (ht : t.Sound) (hr : r.Consistent t.degrees) (hv : v < t.net.size)
    (h : Turned t r v move r') : r'.Consistent t.degrees := by
  cases h with
  | stay => exact hr
  | go best above moves =>
    obtain ⟨hlt, hne, -⟩ := Network.mem_rivals.1 (Terrain.best_spec best).1
    have hsize : t.degrees.byNode.size = t.net.size := by rw [ht.degrees_eq, Network.size_byNode]
    rw [← hsize] at hv moves
    exact moves.consistent hr hv hlt hne.symm

theorem Turned.quality_sub (ht : t.Sound) (hr : r.Consistent t.degrees) (hv : v < t.net.size)
    (h : Turned t r v move r') :
    quality t.net.edges r'.communityAt - quality t.net.edges r.communityAt =
      (move.toList.map (·.gain)).sum := by
  cases h with
  | stay => simp
  | go best above moves =>
    obtain ⟨hrival, hgain⟩ := Terrain.best_spec best
    obtain ⟨hlt, hne, -⟩ := Network.mem_rivals.1 hrival
    rw [moves.communityAt_eq (ht.indexes hr) hv]
    simp [hgain, Terrain.gainAt_eq ht hr hv hlt hne.symm]

theorem Turned.lt_gain {W : Type} [Weight W] {t : Terrain W} {r r' : Roster W}
    {move : Option (Move W)} (h : Turned t r v move r') :
    ∀ m ∈ move.toList, t.threshold < m.gain := by
  cases h with
  | stay => simp
  | go best above moves => simpa using above

end Turn

/-! ## The gain of a search -/

section Turns

variable {vs : List Nat} {moves : List (Move K)}

theorem Took.consistent (ht : t.Sound) (hr : r.Consistent t.degrees)
    (hvs : ∀ v ∈ vs, v < t.net.size) (h : Took t r vs moves r') : r'.Consistent t.degrees := by
  induction h with
  | nil => exact hr
  | cons first rest ih =>
    rw [List.forall_mem_cons] at hvs
    exact ih (first.consistent ht hr hvs.1) hvs.2

theorem Took.quality_sub (ht : t.Sound) (hr : r.Consistent t.degrees)
    (hvs : ∀ v ∈ vs, v < t.net.size) (h : Took t r vs moves r') :
    quality t.net.edges r'.communityAt - quality t.net.edges r.communityAt =
      (moves.map (·.gain)).sum := by
  induction h with
  | nil => simp
  | cons first rest ih =>
    rw [List.forall_mem_cons] at hvs
    have hfirst := first.quality_sub ht hr hvs.1
    have hrest := ih (first.consistent ht hr hvs.1) hvs.2
    rw [List.map_append, List.sum_append, ← hfirst, ← hrest]
    ring

theorem Took.lt_gain {W : Type} [Weight W] {t : Terrain W} {r r' : Roster W}
    {moves : List (Move W)} (h : Took t r vs moves r') : ∀ m ∈ moves, t.threshold < m.gain := by
  induction h with
  | nil => simp
  | cons first rest ih =>
    intro m hm
    rcases List.mem_append.1 hm with hm | hm
    · exact first.lt_gain m hm
    · exact ih m hm

variable {sweeps : List (Sweep K)} {ending : Ending}

theorem Settled.consistent (ht : t.Sound) (hr : r.Consistent t.degrees)
    (hvs : ∀ v ∈ vs, v < t.net.size) (h : Settled t vs r sweeps ending r') :
    r'.Consistent t.degrees := by
  induction h with
  | cap => exact hr
  | last => exact hr
  | more took _ _ ih => exact ih (took.consistent ht hr hvs)

theorem Settled.quality_sub (ht : t.Sound) (hr : r.Consistent t.degrees)
    (hvs : ∀ v ∈ vs, v < t.net.size) (h : Settled t vs r sweeps ending r') :
    quality t.net.edges r'.communityAt - quality t.net.edges r.communityAt =
      ((sweeps.flatMap (·.moves)).map (·.gain)).sum := by
  induction h with
  | cap => simp
  | last => simp
  | more took moved later ih =>
    have hfirst := took.quality_sub ht hr hvs
    have hrest := ih (took.consistent ht hr hvs)
    rw [List.flatMap_cons, List.map_append, List.sum_append, ← hfirst, ← hrest]
    ring

theorem Settled.lt_gain {W : Type} [Weight W] {t : Terrain W} {r r' : Roster W}
    {sweeps : List (Sweep W)} (h : Settled t vs r sweeps ending r') :
    ∀ m ∈ sweeps.flatMap (·.moves), t.threshold < m.gain := by
  induction h with
  | cap => simp
  | last => simp
  | more took moved later ih =>
    intro m hm
    rcases List.mem_append.1 hm with hm | hm
    · exact took.lt_gain m hm
    · exact ih m hm

variable [IsStrictOrderedRing K]

private theorem mul_lt_sum_gains {threshold : K} (hne : moves ≠ [])
    (h : ∀ m ∈ moves, threshold < m.gain) : moves.length * threshold < (moves.map (·.gain)).sum := by
  induction moves with
  | nil => exact absurd rfl hne
  | cons m moves ih =>
    rw [List.forall_mem_cons] at h
    rw [List.map_cons, List.sum_cons, List.length_cons, Nat.cast_succ, add_one_mul]
    by_cases hmoves : moves = []
    · subst hmoves; simpa using h.1
    · have hrest := ih hmoves h.2
      have hfirst := h.1
      linarith

/-- Turns that move any node gain more than the threshold for each of their moves. -/
theorem Took.mul_lt_quality_sub (ht : t.Sound) (hr : r.Consistent t.degrees)
    (hvs : ∀ v ∈ vs, v < t.net.size) (h : Took t r vs moves r') (hmoved : moves ≠ []) :
    moves.length * t.threshold <
      quality t.net.edges r'.communityAt - quality t.net.edges r.communityAt := by
  rw [h.quality_sub ht hr hvs]
  exact mul_lt_sum_gains hmoved h.lt_gain

/-- So does a search. -/
theorem Settled.mul_lt_quality_sub (ht : t.Sound) (hr : r.Consistent t.degrees)
    (hvs : ∀ v ∈ vs, v < t.net.size) (h : Settled t vs r sweeps ending r')
    (hmoved : sweeps.flatMap (·.moves) ≠ []) :
    (sweeps.flatMap (·.moves)).length * t.threshold <
      quality t.net.edges r'.communityAt - quality t.net.edges r.communityAt := by
  rw [h.quality_sub ht hr hvs]
  exact mul_lt_sum_gains hmoved h.lt_gain

end Turns

/-- A search leaves a roster that is consistent with its network. -/
theorem run_consistent {settings : Settings K} {budget level : Nat} {net : Network K}
    {scratch : Scratch K} {s : Search K} (hnet : net.Canonical) (hr : r.Consistent net.degrees)
    (hrun : run settings budget net net.degrees r level scratch = .ok s) :
    s.roster.Consistent net.degrees := by
  rcases run_spec hnet ((Roster.consistent_iff hnet).1 hr).1 hrun with ⟨-, rfl⟩ | ⟨hpos, hsettled⟩
  · exact hr
  · exact hsettled.consistent (t := ⟨net, net.degrees, settings.threshold⟩) ⟨hnet, rfl, hpos⟩ hr
      VisitOrder.lt_of_mem_toList_nodes

end Search

end Communities
