import Communities.Proofs.LocalSearch.Shrink
import Communities.Proofs.Roster.Start

/-!
# Every point of a search

The sweeps of a search are one sequence of turns, which gives the nodes of its order their turn over
and over. So what holds after any sequence of turns holds at every point of a search, however it
ends, and of one that never would. A community that has lost its last member is not founded again at
any later point, in any arithmetic.

* `Search.turns_append`: turns can be split anywhere, `Search.turns_of_settle`: a search is the
  turns of its sweeps.
* `Search.Joining`: what a node that moves does, `Search.Turned.joining`: every turn does that;
  `Search.Turned.occupied_add`: the count that the roster keeps is exact.
* `Search.Dwindles`: what a roster says of a later one, `Search.Took.dwindles`: turns keep to that.
* `Search.vacant_stays_vacant`: all points of a search.
-/

namespace Communities

namespace Search

variable {W : Type} [Weight W]

/-! ## A search as one sequence of turns -/

section Turns

variable {t : Terrain W} {w : Walk W}

/-- A turn after others, with its move in front of theirs. -/
private def turnAfter (t : Terrain W) (before : List (Move W) × Walk W) (v : Nat) :
    Except Fault (List (Move W) × Walk W) :=
  (turn t before.2 v).map fun (move, w) => (move.toList ++ before.1, w)

private theorem turns_eq_foldlM (w : Walk W) (vs : List Nat) :
    turns t w vs = (vs.foldlM (turnAfter t) ([], w)).map fun (moves, w) => (moves.reverse, w) := by
  have hstep : (fun (x : List (Move W) × Walk W) node => do
      let (move, w) ← turn t x.2 node
      return (move.toList ++ x.1, w)) = turnAfter t := by
    funext x v
    rw [turnAfter]
    cases turn t x.2 v <;> rfl
  rw [turns]
  refine (congrArg (fun f => List.foldlM f ([], w) vs >>= _) hstep).trans ?_
  cases vs.foldlM (turnAfter t) ([], w) <;> rfl

/-- The moves before do not matter to the turns. -/
private theorem foldlM_turnAfter (vs : List Nat) (done base : List (Move W)) (w : Walk W) :
    vs.foldlM (turnAfter t) (done ++ base, w) =
      (vs.foldlM (turnAfter t) (done, w)).map fun (moves, w) => (moves ++ base, w) := by
  induction vs generalizing done w with
  | nil => rfl
  | cons v vs ih =>
    rw [List.foldlM_cons, List.foldlM_cons, turnAfter, turnAfter]
    cases turn t w v with
    | error e => rfl
    | ok turned =>
      have hassoc : turned.1.toList ++ (done ++ base) = (turned.1.toList ++ done) ++ base :=
        (List.append_assoc _ _ _).symm
      exact (congrArg (fun moves => vs.foldlM (turnAfter t) (moves, turned.2)) hassoc).trans
        (ih _ _)

/-- Later turns go on from where the ones before them have led. -/
theorem turns_append {vs : List Nat} {moves : List (Move W)} {w' : Walk W}
    (h : turns t w vs = .ok (moves, w')) (us : List Nat) :
    turns t w (vs ++ us) = (turns t w' us).map fun (later, w) => (moves ++ later, w) := by
  rw [turns_eq_foldlM] at h ⊢
  obtain ⟨⟨done, w₁⟩, hdone, hmoves⟩ := map_eq_ok_iff.1 h
  cases hmoves
  rw [List.foldlM_append, hdone, ok_bind, turns_eq_foldlM]
  refine (congrArg _ (foldlM_turnAfter us [] done w')).trans ?_
  cases us.foldlM (turnAfter t) ([], w') with
  | error e => rfl
  | ok found => exact congrArg (fun moves => Except.ok (moves, found.2)) List.reverse_append

/-- A search is the turns of its sweeps, one after the other. -/
theorem turns_of_settle {order : Array Nat} {budget : Nat} {left : Option Nat}
    {sweeps : List (Sweep W)} {ending : Ending} {w' : Walk W}
    (h : settle t order budget left w = .ok (sweeps, ending, w')) :
    turns t w (List.replicate sweeps.length order.toList).flatten =
      .ok (sweeps.flatMap (·.moves), w') := by
  induction budget generalizing left w sweeps with
  | zero =>
    by_cases hleft : left = some 0
    · rw [hleft, settle_capped] at h
      cases h
      rfl
    · rw [settle_spent hleft] at h
      cases h
  | succ budget ih =>
    by_cases hleft : left = some 0
    · rw [hleft, settle_capped] at h
      cases h
      rfl
    cases hturns : turns t w order.toList with
    | error e =>
      rw [settle, sweep, hturns] at h
      · cases h
      · exact hleft
    | ok found =>
      obtain ⟨moves, w₁⟩ := found
      have hsweep : sweep t w order = .ok (⟨moves, w₁.roster.occupied⟩, w₁) := by
        rw [sweep, hturns]
        rfl
      rw [settle_succ hleft hsweep] at h
      by_cases hmoves : moves = []
      · rw [if_pos hmoves] at h
        cases h
        simpa using hturns
      · rw [if_neg hmoves] at h
        obtain ⟨⟨rest, ending', w₂⟩, hrest, h⟩ := map_eq_ok_iff.1 h
        cases h
        rw [List.length_cons, List.replicate_succ, List.flatten_cons, turns_append hturns, ih hrest]
        rfl

end Turns

/-! ## What turns do -/

/-- What the turn of node `v` does to a roster: nothing, or it takes the node from its community to
another one that has members. -/
inductive Joining (r : Roster W) (v : Nat) : Option (Move W) → Roster W → Prop
  /-- The node stays. -/
  | stay : Joining r v none r
  /-- The node goes where others are. -/
  | go {move : Move W} {r' : Roster W} (node_eq : move.node = v)
      (origin : r.community v = .ok move.origin) (elsewhere : move.target ≠ move.origin)
      (populated : r.membersOf move.target ≠ []) (joined : r'.community v = .ok move.target) :
    Joining r v (some move) r'

/-- What a roster says of another one that comes later. -/
structure Dwindles (r r' : Roster W) : Prop where
  /-- A community without members stays without. -/
  vacant : ∀ c, r.membersOf c = [] → r'.membersOf c = []
  /-- There are no more communities with members. -/
  occupied_le : r'.occupied ≤ r.occupied

variable {t : Terrain W} {r r' : Roster W} {v : Nat} {vs : List Nat} {moves : List (Move W)}

theorem Turned.joining {move : Option (Move W)} (hnet : t.net.Canonical)
    (hr : r.Indexes t.net.size) (hv : v < t.net.size) (h : Turned t r v move r') :
    Joining r v move r' := by
  cases h with
  | stay => exact .stay
  | @go o r' best above moves =>
    obtain ⟨hrival, -⟩ := Terrain.best_spec best
    obtain ⟨hlt, -⟩ := Network.mem_rivals.1 hrival
    obtain ⟨hne, link, hlink, hc⟩ := (Network.mem_rivals_iff hnet hr hv).1 hrival
    refine .go rfl (hr.community_eq hv) hne (fun hnone => ?_) ?_
    · rw [hr.membersOf_eq_nil_iff hlt] at hnone
      exact hnone ⟨_, hnet.target_lt_of_mem_row hv hlink, hc⟩
    · rw [moves.indexes.community_eq hv, moves.communityAt_eq hr hv, Function.update_self]

theorem Turned.counts {move : Option (Move W)} (hr : r.Indexes t.net.size) (hv : v < t.net.size)
    (hcounts : r.Counts t.net.size) (h : Turned t r v move r') : r'.Counts t.net.size := by
  cases h with
  | stay => exact hcounts
  | go best above moves =>
    obtain ⟨-, hne, -⟩ := Network.mem_rivals.1 (Terrain.best_spec best).1
    exact moves.counts hr hv hne.symm hcounts

/-- A move takes a community off the count if that has lost its last member. -/
theorem Turned.occupied_add {move : Move W} (hnet : t.net.Canonical) (hr : r.Indexes t.net.size)
    (hv : v < t.net.size) (hcounts : r.Counts t.net.size) (h : Turned t r v (some move) r') :
    r'.occupied + (if r'.membersOf move.origin = [] then 1 else 0) = r.occupied := by
  have hjoining := h.joining hnet hr hv
  cases h with
  | go best above moves =>
    cases hjoining with
    | go _ _ elsewhere populated =>
      have hadd := moves.occupied_add hr hv (Ne.symm elsewhere) hcounts
      rwa [if_neg populated] at hadd

theorem Took.counts (hr : r.Indexes t.net.size) (hvs : ∀ v ∈ vs, v < t.net.size)
    (hcounts : r.Counts t.net.size) (h : Took t r vs moves r') : r'.Counts t.net.size := by
  induction h with
  | nil => exact hcounts
  | cons first rest ih =>
    rw [List.forall_mem_cons] at hvs
    exact ih (first.indexes hr) hvs.2 (first.counts hr hvs.1 hcounts)

theorem Took.dwindles (hnet : t.net.Canonical) (hr : r.Indexes t.net.size)
    (hcounts : r.Counts t.net.size) (hvs : ∀ v ∈ vs, v < t.net.size)
    (h : Took t r vs moves r') : Dwindles r r' := by
  have hsubset := h.usedLabels_subset hnet hr hvs
  refine ⟨fun c hc => ?_, ?_⟩
  · rw [hr.membersOf_eq_nil_iff_notMem] at hc
    rw [(h.indexes hr).membersOf_eq_nil_iff_notMem]
    exact fun hused => hc (hsubset hused)
  · rw [hcounts, h.counts hr hvs hcounts]
    exact Finset.card_le_card hsubset

/-- The first move of a node that was alone leaves a community behind that has no members. -/
theorem Took.occupied_lt {net : Network W} {threshold : W} (hnet : net.Canonical)
    (hvs : ∀ v ∈ vs, v < net.size)
    (h : Took ⟨net, net.degrees, threshold⟩ (.singletons net.degrees) vs moves r')
    (hmoved : moves ≠ []) : r'.occupied < net.size := by
  have hr := Roster.indexes_alone net
  have hcounts : (Roster.singletons net.degrees).Counts net.size := by
    simpa using (Roster.Starts.alone (d := net.degrees)).counts
  have halone : ∀ v < net.size, (Roster.singletons net.degrees).communityAt v = v := fun v hv =>
    Roster.communityAt_singletons (by simpa using hv)
  have hlost := h.usedLabels_ssubset hnet hr hvs
    (fun v hv u hu hsame => by rwa [halone u hu, halone v hv] at hsame) hmoved
  rw [h.counts hr hvs hcounts]
  exact (Finset.card_lt_card hlost).trans_le (card_usedLabels_le _ _)

/-! ## All points -/

/-- At no point of a search does a node move to a community without members, so one that has none
stays without at all later points, and the communities with members become fewer. The points are
those of all sequences of turns; a search, however it has ended, is the sequence of its sweeps. -/
theorem vacant_stays_vacant {net : Network W} (hnet : net.Built) {roster : Roster W}
    (hr : roster.Indexes net.size) (hcounts : roster.Counts net.size) (settings : Settings W)
    (scratch : Scratch W) {t : Terrain W} (ht : t = ⟨net, net.degrees, settings.threshold⟩)
    {start : Walk W} (hstart : start = ⟨roster, scratch.tally.blank roster.capacity⟩) :
    (0 < net.degrees.total → ∀ vs : List Nat, (∀ v ∈ vs, v < net.size) →
      ∃ moves w, turns t start vs = .ok (moves, w) ∧ Dwindles roster w.roster ∧
        (∀ v < net.size, ∃ move w', turn t w v = .ok (move, w') ∧
          Joining w.roster v move w'.roster) ∧
        (∀ us : List Nat, (∀ u ∈ us, u < net.size) →
          ∃ later w', turns t start (vs ++ us) = .ok (moves ++ later, w') ∧
            Dwindles w.roster w'.roster) ∧
        (roster = .singletons net.degrees → moves ≠ [] → w.roster.occupied < net.size)) ∧
    ∀ (budget level : Nat) (s : Search W),
      run settings budget net net.degrees roster level scratch = .ok s →
        (∃ w, turns t start (List.replicate s.sweeps.length
            (settings.order.nodes level net.size).toList).flatten =
              .ok (s.sweeps.flatMap (·.moves), w) ∧ w.roster = s.roster) ∧
        Dwindles roster s.roster ∧
        (roster = .singletons net.degrees → s.moveCount ≠ 0 → s.roster.occupied < net.size) := by
  subst ht hstart
  have hcanonical := hnet.canonical
  have hpoint : 0 < net.degrees.total → ∀ vs : List Nat, (∀ v ∈ vs, v < net.size) →
      ∃ moves w, turns ⟨net, net.degrees, settings.threshold⟩
          ⟨roster, scratch.tally.blank roster.capacity⟩ vs = .ok (moves, w) ∧
        Ready ⟨net, net.degrees, settings.threshold⟩ w ∧
        Took ⟨net, net.degrees, settings.threshold⟩ roster vs moves w.roster := fun hpos vs hvs =>
    turns_eq_ok ⟨⟨hcanonical, rfl, hpos⟩, hr, Tally.clear_blank _ _⟩ hvs
  have hfewer : ∀ {vs : List Nat} {moves : List (Move W)} {r' : Roster W},
      (∀ v ∈ vs, v < net.size) →
      Took ⟨net, net.degrees, settings.threshold⟩ roster vs moves r' →
        roster = .singletons net.degrees → moves ≠ [] → r'.occupied < net.size := by
    rintro vs moves r' hvs htook rfl hmoved
    exact htook.occupied_lt hcanonical hvs hmoved
  refine ⟨fun hpos vs hvs => ?_, fun budget level s hrun => ?_⟩
  · obtain ⟨moves, w, hturns, hready, htook⟩ := hpoint hpos vs hvs
    have hdwindles := htook.dwindles hcanonical hr hcounts hvs
    have hcounts' := htook.counts hr hvs hcounts
    refine ⟨moves, w, hturns, hdwindles, fun v hv => ?_, fun us hus => ?_, hfewer hvs htook⟩
    · obtain ⟨move, w', hturn, -, hturned⟩ := turn_eq_ok hready hv
      exact ⟨move, w', hturn, hturned.joining hcanonical hready.indexes hv⟩
    · obtain ⟨later, w', hlater, -, htook'⟩ := turns_eq_ok hready hus
      refine ⟨later, w', ?_, htook'.dwindles hcanonical hready.indexes hcounts' hus⟩
      rw [turns_append hturns, hlater]
      rfl
  · by_cases hpos : 0 < net.degrees.total
    · rw [run_of_pos hpos] at hrun
      obtain ⟨⟨sweeps, ending, w⟩, hsettle, hs⟩ := map_eq_ok_iff.1 hrun
      subst hs
      have hvs : ∀ v ∈ (List.replicate sweeps.length
          (settings.order.nodes level net.size).toList).flatten, v < net.size := by
        intro v hv
        obtain ⟨vs, hvs, hv⟩ := List.mem_flatten.1 hv
        rw [List.eq_of_mem_replicate hvs] at hv
        exact VisitOrder.lt_of_mem_toList_nodes v hv
      have hturns := turns_of_settle hsettle
      obtain ⟨moves, w', hturns', -, htook⟩ := hpoint hpos _ hvs
      rw [hturns] at hturns'
      cases hturns'
      refine ⟨⟨w, hturns, rfl⟩, htook.dwindles hcanonical hr hcounts hvs, fun halone hmoved => ?_⟩
      exact hfewer hvs htook halone fun hnone => hmoved (by simp [moveCount, hnone])
    · rw [run_of_not_pos hpos] at hrun
      cases hrun
      exact ⟨⟨_, rfl, rfl⟩, ⟨fun _ => id, Nat.le_refl _⟩, fun _ hmoved => absurd rfl hmoved⟩

theorem vacant_stays_vacant_pair :
    Network.pair.Built ∧ 0 < Network.pair.degrees.total ∧
    (Roster.singletons Network.pair.degrees).Indexes Network.pair.size ∧
    (Roster.singletons Network.pair.degrees).Counts Network.pair.size ∧
    (∃ moves w, turns ⟨Network.pair, Network.pair.degrees, 1 / 10⟩
            ⟨.singletons Network.pair.degrees,
              Tally.empty.blank (Roster.singletons Network.pair.degrees).capacity⟩ [0] =
          .ok (moves, w) ∧
        moves = [⟨0, 0, 1, 1 / 2⟩] ∧ w.roster.occupied < 2 ∧
        ∃ later w', turns ⟨Network.pair, Network.pair.degrees, 1 / 10⟩
              ⟨.singletons Network.pair.degrees,
                Tally.empty.blank (Roster.singletons Network.pair.degrees).capacity⟩ [0, 1, 0] =
            .ok (moves ++ later, w') ∧ Dwindles w.roster w'.roster) ∧
    ∃ s, run ⟨1 / 10, .single, .ascending, some 1, false⟩ 1 Network.pair Network.pair.degrees
        (.singletons Network.pair.degrees) 0 .empty = .ok s ∧
      s.ending = .capped ∧ s.moveCount = 1 ∧ s.roster.occupied < 2 := by
  have hpos : 0 < Network.pair.degrees.total := by decide +kernel
  have hr := Roster.indexes_alone Network.pair
  have hcounts : (Roster.singletons Network.pair.degrees).Counts Network.pair.size :=
    (Roster.Starts.alone (d := Network.pair.degrees)).counts
  obtain ⟨hpoints, hruns⟩ := vacant_stays_vacant Network.built_pair hr hcounts
    ⟨1 / 10, .single, .ascending, some 1, false⟩ .empty
    (t := ⟨Network.pair, Network.pair.degrees, 1 / 10⟩) rfl rfl
  refine ⟨Network.built_pair, hpos, hr, hcounts, ?_, ?_⟩
  · have hfirst : (turns ⟨Network.pair, Network.pair.degrees, 1 / 10⟩
        ⟨.singletons Network.pair.degrees,
          Tally.empty.blank (Roster.singletons Network.pair.degrees).capacity⟩ [0]).map (·.1) =
          .ok [⟨0, 0, 1, 1 / 2⟩] := by
      decide +kernel
    obtain ⟨moves, w, hturns, -, -, hlater, hfewer⟩ := hpoints hpos [0] (by decide)
    obtain ⟨found, hfound, hmoves⟩ := map_eq_ok_iff.1 hfirst
    cases hturns.symm.trans hfound
    cases hmoves
    obtain ⟨later, w', hturns', hdwindles⟩ := hlater [1, 0] (by decide)
    exact ⟨_, w, hturns, rfl, hfewer rfl (List.cons_ne_nil _ _), later, w', hturns', hdwindles⟩
  · have hfound : (run ⟨1 / 10, .single, .ascending, some 1, false⟩ 1 Network.pair
        Network.pair.degrees (.singletons Network.pair.degrees) 0 .empty).map
          (fun s => (s.ending, s.moveCount)) = .ok (.capped, 1) := by
      decide +kernel
    obtain ⟨s, hrun, hs⟩ := map_eq_ok_iff.1 hfound
    obtain ⟨hending, hmoves⟩ := Prod.mk.inj hs
    obtain ⟨-, -, hfewer⟩ := hruns 1 0 s hrun
    exact ⟨s, hrun, hending, hmoves, hfewer rfl (hmoves.symm ▸ Nat.one_ne_zero)⟩

end Search

end Communities
