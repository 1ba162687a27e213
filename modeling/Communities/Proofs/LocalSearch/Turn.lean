import Communities.LocalSearch
import Communities.Proofs.LocalSearch.Tally
import Communities.Proofs.Network.Degrees

/-!
# What a turn does

With the roster in step and the tally clear, no turn can fail: it weighs each rival community, the
communities of the neighbours other than the node's own, by one formula, and either leaves the
roster as it is or moves the node to the best of them. This holds in any arithmetic.

* `Network.mem_rivals_iff`: the rivals are the communities of the neighbours, but not the node's
  own.
* `Terrain.Sound` and `Search.Ready`: all that a turn relies on, and leaves behind.
* `Search.offer_eq_ok`: an offer is the best one there is.
* `Search.Turned`: what one turn does, `Search.turn_eq_ok`: every turn does that.
* `Search.Took`: what a sequence of turns does, `Search.turns_eq_ok` and `Search.sweep_eq_ok`.
-/

namespace Communities

variable {W : Type} [Weight W]

/-! ## Offers -/

/-- The weight of the links between a node and the other members of a community. -/
def Network.linkTo (net : Network W) (r : Roster W) (v c : Nat) : W :=
  Weight.sum (weightsTo (net.linksOut r v) c)

/-- The communities of a node's neighbours other than its own, ascending. -/
def Network.rivals (net : Network W) (r : Roster W) (v : Nat) : List Nat :=
  (List.range r.capacity).filter fun c =>
    c ≠ r.communityAt v ∧ c ∈ (net.linksOut r v).map (·.1)

namespace Terrain

/-- What node `v` gains if it moves to community `c`. -/
def gainAt (t : Terrain W) (r : Roster W) (v c : Nat) : W :=
  Weight.two * ((t.net.linkTo r v c - t.net.linkTo r v (r.communityAt v)) -
    t.degrees.degreeAt v / t.degrees.total *
      (r.sumAt c - r.sumAt (r.communityAt v) + t.degrees.degreeAt v)) / t.degrees.total

/-- What the rival communities offer to a node. -/
def offers (t : Terrain W) (r : Roster W) (v : Nat) : List (Offer W) :=
  (t.net.rivals r v).map fun c => ⟨c, t.gainAt r v c⟩

/-- The best of them. -/
def best (t : Terrain W) (r : Roster W) (v : Nat) : Option (Offer W) :=
  (t.offers r v).foldl Offer.better none

/-- A terrain that can be searched. -/
structure Sound (t : Terrain W) : Prop where
  /-- The network has its form. -/
  canonical : t.net.Canonical
  /-- The degrees are those of the network. -/
  degrees_eq : t.degrees = t.net.degrees
  /-- There is weight. -/
  total_pos : 0 < t.degrees.total

end Terrain

omit [Weight W] in
theorem Network.mem_rivals {net : Network W} {r : Roster W} {v c : Nat} :
    c ∈ net.rivals r v ↔
      c < r.capacity ∧ c ≠ r.communityAt v ∧ c ∈ (net.linksOut r v).map (·.1) := by
  simp [rivals]

theorem Offer.mem_of_better {os : List (Offer W)} {held : Option (Offer W)} {o : Offer W}
    (h : os.foldl better held = some o) : o ∈ os ∨ held = some o := by
  induction os generalizing held with
  | nil => exact .inr h
  | cons first os ih =>
    rw [List.foldl_cons] at h
    rcases ih h with hmem | hheld
    · exact .inl (List.mem_cons_of_mem _ hmem)
    · unfold better at hheld
      split at hheld
      · cases hheld; exact .inl List.mem_cons_self
      · split at hheld
        · cases hheld; exact .inl List.mem_cons_self
        · exact .inr hheld

theorem Terrain.best_spec {t : Terrain W} {r : Roster W} {v : Nat} {o : Offer W}
    (h : t.best r v = some o) : o.community ∈ t.net.rivals r v ∧ o.gain = t.gainAt r v o.community := by
  rcases Offer.mem_of_better h with hmem | hnone
  · obtain ⟨c, hc, rfl⟩ := List.mem_map.1 hmem
    exact ⟨hc, rfl⟩
  · cases hnone

omit [Weight W] in
theorem linksOut_lt {net : Network W} {r : Roster W} {v : Nat} (hnet : net.Canonical)
    (hr : r.Indexes net.size) (hv : v < net.size) :
    ∀ c ∈ (net.linksOut r v).map (·.1), c < r.capacity := by
  intro c hc
  rw [Network.linksOut, List.map_map, List.mem_map] at hc
  obtain ⟨link, hlink, rfl⟩ := hc
  exact hr.communityAt_lt _ (hnet.target_lt_of_mem_row hv (List.mem_filter.1 hlink).1)

omit [Weight W] in
/-- The rivals are where the neighbours are, other than with the node. -/
theorem Network.mem_rivals_iff {net : Network W} {r : Roster W} {v c : Nat} (hnet : net.Canonical)
    (hr : r.Indexes net.size) (hv : v < net.size) : c ∈ net.rivals r v ↔
      c ≠ r.communityAt v ∧ ∃ link ∈ net.row v, r.communityAt link.target = c := by
  rw [mem_rivals, linksOut, List.map_map, List.mem_map]
  constructor
  · rintro ⟨-, hne, link, hlink, hc⟩
    exact ⟨hne, link, (List.mem_filter.1 hlink).1, hc⟩
  · rintro ⟨hne, link, hlink, rfl⟩
    -- A loop leads to the node's own community, which is no rival.
    have hloop : link.target ≠ v := fun h => hne (by rw [h])
    exact ⟨hr.communityAt_lt _ (hnet.target_lt_of_mem_row hv hlink), hne, link,
      List.mem_filter.2 ⟨hlink, by simpa using hloop⟩, rfl⟩

/-- In ascending order, as the search visits them. -/
theorem Tally.Records.candidates_eq {t : Tally W} {n : Nat} {links : List (Nat × W)}
    (h : t.Records n links) (hlinks : ∀ c ∈ links.map (·.1), c < n) :
    t.candidates = (List.range n).filter (· ∈ links.map (·.1)) := by
  have hperm : t.candidates.Perm t.adjacent := List.mergeSort_perm _ _
  have hle : t.candidates.Pairwise (· ≤ ·) := by
    have hsorted : t.candidates.Pairwise fun a b => decide (a ≤ b) = true :=
      List.pairwise_mergeSort (fun a b c => by simp; omega) (fun a b => by simp; omega) t.adjacent
    exact hsorted.imp (by simp)
  have hlt : t.candidates.Pairwise (· < ·) :=
    (hle.and (hperm.nodup_iff.2 h.nodup)).imp fun hab => Nat.lt_of_le_of_ne hab.1 hab.2
  refine List.Pairwise.eq_of_mem_iff hlt (List.pairwise_lt_range.sublist List.filter_sublist)
    fun c => ?_
  rw [hperm.mem_iff, h.mem_adjacent]
  simp only [List.mem_filter, List.mem_range, decide_eq_true_eq]
  exact ⟨fun hc => ⟨hlinks c hc, hc⟩, And.right⟩

namespace Search

/-! ## One turn -/

/-- What a turn relies on. -/
structure Ready (t : Terrain W) (w : Walk W) : Prop extends t.Sound where
  /-- The roster is in step. -/
  indexes : w.roster.Indexes t.net.size
  /-- The tally is clear. -/
  clear : w.tally.Clear w.roster.capacity

theorem bestOffer_eq_ok {t : Terrain W} {w : Walk W} (h : Ready t w) {v : Nat}
    (hv : v < t.net.size) {tally : Tally W}
    (ht : tally.Records w.roster.capacity (t.net.linksOut w.roster v)) :
    tally.bestOffer w.roster (t.degrees.degreeAt v) t.degrees.total (w.roster.communityAt v)
      tally.candidates = .ok (t.best w.roster v) := by
  have hlinks := linksOut_lt h.canonical h.indexes hv
  have hown := h.indexes.communityAt_lt v hv
  have hweight : ∀ c < w.roster.capacity, tally.weight c = .ok (t.net.linkTo w.roster v c) :=
    fun c hc => fetch_eq_ok_iff.2 (ht.weights_eq c hc)
  rw [Tally.bestOffer, hweight _ hown, ok_bind, h.indexes.degreeSum_eq hown, ok_bind,
    ht.candidates_eq hlinks]
  have hfold := foldlM_eq_ok (b := none)
    (l := (List.range w.roster.capacity).filter (· ∈ (t.net.linksOut w.roster v).map (·.1)))
    (f := fun (held : Option (Offer W)) c => do
      if c = w.roster.communityAt v then return held
      else
        let g ← gain (t.degrees.degreeAt v) (t.net.linkTo w.roster v (w.roster.communityAt v))
          (w.roster.sumAt (w.roster.communityAt v)) (← tally.weight c) (← w.roster.degreeSum c)
          t.degrees.total
        return Offer.better held ⟨c, g⟩)
    (g := fun held c => if c ≠ w.roster.communityAt v then
      Offer.better held ⟨c, t.gainAt w.roster v c⟩ else held)
    (fun _ => True) trivial (fun held _ c hc => by
      have hc' : c < w.roster.capacity := by simpa using (List.mem_filter.1 hc).1
      refine ⟨?_, trivial⟩
      by_cases heq : c = w.roster.communityAt v
      · rw [if_pos heq, if_neg (not_not.2 heq)]; rfl
      · rw [if_neg heq, if_pos heq, hweight c hc', ok_bind, h.indexes.degreeSum_eq hc', ok_bind,
          gain, if_pos h.total_pos]
        rfl)
  refine hfold.1.trans ?_
  have hrivals : t.net.rivals w.roster v = ((List.range w.roster.capacity).filter
      (· ∈ (t.net.linksOut w.roster v).map (·.1))).filter (· ≠ w.roster.communityAt v) := by
    rw [Network.rivals, List.filter_filter]
    simp only [Bool.decide_and]
  rw [Terrain.best, Terrain.offers, List.foldl_map, hrivals]
  simp only [List.foldl_filter, decide_eq_true_eq]

/-- An offer is the best one, and leaves a clear tally. -/
theorem offer_eq_ok {t : Terrain W} {w : Walk W} (h : Ready t w) {v : Nat}
    (hv : v < t.net.size) :
    ∃ tally, offer t w.roster w.tally v = .ok (t.best w.roster v, tally) ∧
      tally.Clear w.roster.capacity := by
  have hdegree : t.degrees.degree v = .ok (t.degrees.degreeAt v) :=
    Degrees.degree_eq_ok (by rw [h.degrees_eq, Network.size_byNode]; exact hv)
  obtain ⟨tally, hcollect, hrecords⟩ := Tally.collect_eq_ok h.clear h.canonical h.indexes hv
  obtain ⟨tally', hclear, hclean⟩ :=
    Tally.clear_eq_ok hrecords (linksOut_lt h.canonical h.indexes hv)
  refine ⟨tally', ?_, hclean⟩
  rw [offer, h.indexes.community_eq hv, ok_bind, hdegree, ok_bind, hcollect, ok_bind,
    bestOffer_eq_ok h hv hrecords, ok_bind, hclear]
  rfl

/-- What the turn of node `v` can do. -/
inductive Turned (t : Terrain W) (r : Roster W) (v : Nat) : Option (Move W) → Roster W → Prop
  /-- The node stays where no offer is above the threshold. -/
  | stay (below : ∀ o, t.best r v = some o → ¬t.threshold < o.gain) : Turned t r v none r
  /-- The node takes the best offer. -/
  | go {o : Offer W} {r' : Roster W} (best : t.best r v = some o) (above : t.threshold < o.gain)
      (moves : r.Moves t.net.size v o.community (t.degrees.degreeAt v) r') :
    Turned t r v (some ⟨v, r.communityAt v, o.community, o.gain⟩) r'

theorem Turned.indexes {t : Terrain W} {r r' : Roster W} {v : Nat} {move : Option (Move W)}
    (hr : r.Indexes t.net.size) (h : Turned t r v move r') : r'.Indexes t.net.size := by
  cases h with
  | stay => exact hr
  | go _ _ moves => exact moves.indexes

theorem turn_eq_ok {t : Terrain W} {w : Walk W} (h : Ready t w) {v : Nat} (hv : v < t.net.size) :
    ∃ move w', turn t w v = .ok (move, w') ∧ Ready t w' ∧ Turned t w.roster v move w'.roster := by
  have hcommunity := h.indexes.community_eq hv
  have hdegree : t.degrees.degree v = .ok (t.degrees.degreeAt v) :=
    Degrees.degree_eq_ok (by rw [h.degrees_eq, Network.size_byNode]; exact hv)
  obtain ⟨tally', hoffer, hclean⟩ := offer_eq_ok h hv
  rw [turn]
  simp only [hcommunity, ok_bind, hoffer]
  cases hbest : t.best w.roster v with
  | none =>
    exact ⟨none, ⟨w.roster, tally'⟩, rfl, { h with clear := hclean },
      .stay fun o ho => by rw [hbest] at ho; cases ho⟩
  | some o =>
    by_cases hgain : t.threshold < o.gain
    · obtain ⟨hrival, -⟩ := Terrain.best_spec hbest
      obtain ⟨hlt, hne, -⟩ := Network.mem_rivals.1 hrival
      obtain ⟨r', hmove, hmoves⟩ :=
        Roster.move_eq_ok h.indexes hv hlt hne.symm (t.degrees.degreeAt v)
      refine ⟨_, ⟨r', tally'⟩, ?_, ?_, .go hbest hgain hmoves⟩
      · simp only [if_pos hgain, hdegree, ok_bind, hmove]
        rfl
      · exact ⟨h.toSound, hmoves.indexes, hmoves.capacity_eq.symm ▸ hclean⟩
    · refine ⟨none, ⟨w.roster, tally'⟩, by simp only [if_neg hgain]; rfl,
        { h with clear := hclean }, .stay fun o' ho' => ?_⟩
      rw [hbest] at ho'
      cases ho'
      exact hgain

/-! ## Turns of many nodes -/

/-- What the turns of the nodes in a list can do. -/
inductive Took (t : Terrain W) : Roster W → List Nat → List (Move W) → Roster W → Prop
  /-- No turn changes nothing. -/
  | nil (r : Roster W) : Took t r [] [] r
  /-- The next turn sees the moves before it. -/
  | cons {r r' r'' : Roster W} {v : Nat} {vs : List Nat} {move : Option (Move W)}
      {moves : List (Move W)} (first : Turned t r v move r') (rest : Took t r' vs moves r'') :
    Took t r (v :: vs) (move.toList ++ moves) r''

theorem Took.indexes {t : Terrain W} {r r' : Roster W} {vs : List Nat} {moves : List (Move W)}
    (hr : r.Indexes t.net.size) (h : Took t r vs moves r') : r'.Indexes t.net.size := by
  induction h with
  | nil => exact hr
  | cons first rest ih => exact ih (first.indexes hr)

private theorem foldlM_turn {t : Terrain W} {vs : List Nat} (hvs : ∀ v ∈ vs, v < t.net.size)
    {w : Walk W} (h : Ready t w) (done : List (Move W)) :
    ∃ moves w', vs.foldlM (fun (x : List (Move W) × Walk W) node => do
        let (move, w) ← turn t x.2 node
        return (move.toList ++ x.1, w)) (done, w) = .ok (moves.reverse ++ done, w') ∧
      Ready t w' ∧ Took t w.roster vs moves w'.roster := by
  induction vs generalizing w done with
  | nil => exact ⟨[], w, rfl, h, .nil _⟩
  | cons v vs ih =>
    obtain ⟨move, w₁, hturn, h₁, hturned⟩ := turn_eq_ok h (hvs v (by simp))
    obtain ⟨moves, w₂, hrest, h₂, htook⟩ :=
      ih (fun u hu => hvs u (by simp [hu])) h₁ (move.toList ++ done)
    refine ⟨move.toList ++ moves, w₂, ?_, h₂, .cons hturned htook⟩
    rw [List.foldlM_cons, hturn, ok_bind]
    refine hrest.trans ?_
    cases move <;> simp

theorem turns_eq_ok {t : Terrain W} {w : Walk W} (h : Ready t w) {vs : List Nat}
    (hvs : ∀ v ∈ vs, v < t.net.size) :
    ∃ moves w', turns t w vs = .ok (moves, w') ∧ Ready t w' ∧
      Took t w.roster vs moves w'.roster := by
  obtain ⟨moves, w', hfold, h', htook⟩ := foldlM_turn hvs h []
  refine ⟨moves, w', ?_, h', htook⟩
  rw [turns]
  refine (congrArg (· >>= _) hfold).trans ?_
  rw [ok_bind]
  simp

theorem sweep_eq_ok {t : Terrain W} {w : Walk W} (h : Ready t w) {order : Array Nat}
    (horder : ∀ v ∈ order, v < t.net.size) :
    ∃ moves w', sweep t w order = .ok (⟨moves, w'.roster.occupied⟩, w') ∧ Ready t w' ∧
      Took t w.roster order.toList moves w'.roster := by
  have hvs : ∀ v ∈ order.toList, v < t.net.size := fun v hv => horder v (Array.mem_toList_iff.1 hv)
  obtain ⟨moves, w', hturns, h', htook⟩ := turns_eq_ok h hvs
  exact ⟨moves, w', by rw [sweep, hturns]; rfl, h', htook⟩

end Search

end Communities
