import Communities.Proofs.LocalSearch.Sweeps
import Communities.Proofs.Network.Scale
import Communities.Proofs.Roster.History

/-!
# The search in another unit

What a move gains is a quotient of weights, so it is the same in every unit, and so is everything
that a search decides by comparing gains with each other and with the threshold. A search of a
network in another unit makes the moves that it makes of the network itself; the sums that it keeps
have the other unit.

* `gain_scale`: a gain has no unit.
* `Tally.bestOffer_scale`: so a node is offered the same.
* `Search.turn_scale`, `Search.sweep_scale` and `Search.settle_scale`: turns, sweeps and the sweeps
  of a search. `Search.run_scale`: the search.
* `Roster.Consistent.scale`: sums of degrees in the other unit.
-/

namespace Communities

section Units

variable {K : Type} [Field K]

/-- The roster with its sums in another unit. -/
def Roster.scale (k : K) (r : Roster K) : Roster K :=
  { r with degreeSums := r.degreeSums.map (k * ·) }

/-- The tally in another unit. -/
def Tally.scale (k : K) (t : Tally K) : Tally K := { t with weights := t.weights.map (k * ·) }

/-- The space of a search with its tally in another unit. -/
def Scratch.scale (k : K) (s : Scratch K) : Scratch K := { s with tally := s.tally.scale k }

/-- The walk in another unit. -/
def Walk.scale (k : K) (w : Walk K) : Walk K := ⟨w.roster.scale k, w.tally.scale k⟩

/-- The terrain in another unit. A threshold for gains has none. -/
def Terrain.scale (k : K) (t : Terrain K) : Terrain K :=
  ⟨t.net.scale k, t.degrees.scale k, t.threshold⟩

/-- The search with its roster and its space in another unit. -/
def Search.scale (k : K) (s : Search K) : Search K :=
  { s with roster := s.roster.scale k, scratch := s.scratch.scale k }

theorem Roster.singletons_scale (k : K) (d : Degrees K) :
    singletons (d.scale k) = (singletons d).scale k := by
  simp [singletons, Degrees.scale, scale]

theorem Roster.degreeSum_scale (k : K) (r : Roster K) (c : Nat) :
    (r.scale k).degreeSum c = (r.degreeSum c).map (k * ·) :=
  fetch_map ..

theorem Degrees.degree_scale (k : K) (d : Degrees K) (v : Nat) :
    (d.scale k).degree v = (d.degree v).map (k * ·) :=
  fetch_map ..

theorem Tally.weight_scale (k : K) (t : Tally K) (c : Nat) :
    (t.scale k).weight c = (t.weight c).map (k * ·) :=
  fetch_map ..

end Units

variable {K : Type} [Field K] [LinearOrder K] (k : K)

/-! ## Tallies -/

namespace Tally

theorem blank_scale (t : Tally K) (n : Nat) : (t.scale k).blank n = (t.blank n).scale k := by
  simp [blank, scale]

theorem record_scale (t : Tally K) (c : Nat) (w : K) :
    (t.scale k).record c (k * w) = (t.record c w).map (.scale k) := by
  rw [record, record]
  refine bind_hom (adjust_add_scale k t.weights c w) fun weights => ?_
  refine bind_hom_right fun touched => ?_
  split_ifs
  · rfl
  · exact bind_hom_right fun touched => rfl

theorem collect_scale (t : Tally K) (net : Network K) (r : Roster K) (v : Nat) :
    (t.scale k).collect (net.scale k) (r.scale k) v = (t.collect net r v).map (.scale k) := by
  rw [collect, collect]
  refine bind_hom (net.links_scale k v) fun links => ?_
  rw [List.foldlM_map]
  refine foldlM_hom (scale k) (fun t link => ?_) links { t with adjacent := [] }
  rw [Link.scale]
  split_ifs
  · rfl
  · exact bind_hom_right fun c => t.record_scale k c link.weight

theorem clear_scale (t : Tally K) : (t.scale k).clear = t.clear.map (.scale k) := by
  rw [clear, clear]
  refine bind_hom (foldlM_hom (Array.map (k * ·)) (fun table c => ?_) t.adjacent t.weights)
    fun weights => bind_hom_right fun touched => rfl
  exact adjust_zero_scale k table c

end Tally

/-! ## Offers -/

section Offers

variable [IsStrictOrderedRing K] {k} (hk : 0 < k)

include hk

theorem gain_scale (degree linkHere sumHere linkThere sumThere m : K) :
    gain (k * degree) (k * linkHere) (k * sumHere) (k * linkThere) (k * sumThere) (k * m) =
      gain degree linkHere sumHere linkThere sumThere m := by
  rw [gain, gain]
  refine if_congr (mul_pos_iff_of_pos_left hk) (congrArg Except.ok ?_) rfl
  -- The factor is taken out of the difference and cancels with that of `m`.
  rw [mul_div_mul_left _ _ hk.ne', ← mul_sub, ← mul_sub, ← mul_add, mul_left_comm _ k, ← mul_sub,
    mul_left_comm _ k, mul_div_mul_left _ _ hk.ne']

theorem Tally.bestOffer_scale (t : Tally K) (r : Roster K) (degree m : K) (current : Nat)
    (candidates : List Nat) :
    (t.scale k).bestOffer (r.scale k) (k * degree) (k * m) current candidates =
      t.bestOffer r degree m current candidates := by
  rw [bestOffer, bestOffer]
  refine bind_eq_of_map (t.weight_scale k current) fun linkHere => ?_
  refine bind_eq_of_map (r.degreeSum_scale k current) fun sumHere => ?_
  refine congrArg (fun f => List.foldlM f none candidates) (funext₂ fun best c => ?_)
  refine if_congr Iff.rfl rfl ?_
  refine bind_eq_of_map (t.weight_scale k c) fun linkThere => ?_
  refine bind_eq_of_map (r.degreeSum_scale k c) fun sumThere => ?_
  rw [gain_scale hk]

theorem Search.offer_scale (t : Terrain K) (r : Roster K) (tally : Tally K) (v : Nat) :
    offer (t.scale k) (r.scale k) (tally.scale k) v =
      (offer t r tally v).map (Prod.map id (.scale k)) := by
  rw [offer, offer]
  refine bind_hom_right fun current => ?_
  refine bind_hom (t.degrees.degree_scale k v) fun degree => ?_
  refine bind_hom (tally.collect_scale k t.net r v) fun collected => ?_
  have hcandidates : (collected.scale k).candidates = collected.candidates := rfl
  have htotal : (t.scale k).degrees.total = k * t.degrees.total := rfl
  rw [hcandidates, htotal, collected.bestOffer_scale hk]
  exact bind_hom_right fun best => bind_hom (collected.clear_scale k) fun cleared => rfl

end Offers

/-! ## Turns -/

theorem Roster.move_scale (r : Roster K) (v origin target : Nat) (degree : K) :
    (r.scale k).move v origin target (k * degree) =
      (r.move v origin target degree).map (.scale k) := by
  have hsub (sums : Array K) (c : Nat) : adjust (sums.map (k * ·)) c (· - k * degree) =
      (adjust sums c (· - degree)).map (Array.map (k * ·)) :=
    adjust_map (fun x => (mul_sub k x degree).symm) sums c
  obtain ⟨communityOf, members, sums, occupied⟩ := r
  rw [scale, move, move]
  refine bind_hom_right fun community => ?_
  split_ifs
  · rfl
  · rfl
  refine bind_hom_right fun members => bind_hom_right fun members => ?_
  refine bind_hom_right fun communityOf => bind_hom_right fun joined => ?_
  refine bind_hom_right fun left => ?_
  by_cases hempty : left.isEmpty = true
  · rw [if_pos hempty, if_pos hempty]
    refine bind_hom (adjust_zero_scale k sums origin) fun sums => ?_
    exact bind_hom (adjust_add_scale k sums target degree) fun sums => rfl
  · rw [if_neg hempty, if_neg hempty]
    refine bind_hom (hsub sums origin) fun sums => ?_
    exact bind_hom (adjust_add_scale k sums target degree) fun sums => rfl

namespace Search

variable [IsStrictOrderedRing K] {k} (hk : 0 < k) (t : Terrain K) (order : Array Nat)

include hk

theorem turn_scale (w : Walk K) (v : Nat) :
    turn (t.scale k) (w.scale k) v = (turn t w v).map (Prod.map id (.scale k)) := by
  obtain ⟨roster, tally⟩ := w
  rw [Walk.scale, turn, turn]
  refine bind_hom_right fun current => ?_
  refine bind_hom (offer_scale hk t roster tally v) fun found => ?_
  obtain ⟨best, tally⟩ := found
  cases best with
  | none => rfl
  | some o =>
    have hthreshold : (t.scale k).threshold = t.threshold := rfl
    simp only [Prod.map, id, hthreshold]
    split_ifs
    · refine bind_hom (t.degrees.degree_scale k v) fun degree => ?_
      exact bind_hom (roster.move_scale k v current o.community degree) fun roster => rfl
    · rfl

theorem turns_scale (w : Walk K) (vs : List Nat) :
    turns (t.scale k) (w.scale k) vs = (turns t w vs).map (Prod.map id (.scale k)) := by
  rw [turns, turns]
  refine bind_hom (f := Prod.map id (.scale k)) ?_ fun _ => rfl
  refine foldlM_hom (Prod.map id (Walk.scale k)) (fun done v => ?_) vs ([], w)
  obtain ⟨moves, w⟩ := done
  exact bind_hom (turn_scale hk t w v) fun _ => rfl

theorem sweep_scale (w : Walk K) :
    sweep (t.scale k) (w.scale k) order = (sweep t w order).map (Prod.map id (.scale k)) := by
  rw [sweep, sweep]
  exact bind_hom (turns_scale hk t w order.toList) fun _ => rfl

theorem settle_scale (budget : Nat) (left : Option Nat) (w : Walk K) :
    settle (t.scale k) order budget left (w.scale k) =
      (settle t order budget left w).map (Prod.map id (Prod.map id (.scale k))) := by
  induction budget generalizing left w with
  | zero =>
    by_cases hleft : left = some 0
    · rw [hleft, settle_capped, settle_capped]
      rfl
    · rw [settle_spent hleft, settle_spent hleft]
      rfl
  | succ budget ih =>
    by_cases hleft : left = some 0
    · rw [hleft, settle_capped, settle_capped]
      rfl
    rw [settle, settle]
    · refine liftM_bind_hom (sweep_scale hk t order w) fun swept => ?_
      obtain ⟨s, w⟩ := swept
      dsimp only [Prod.map, id]
      split_ifs
      · rfl
      · exact bind_hom (ih (left.map (· - 1)) w) fun _ => rfl
    · exact hleft
    · exact hleft

/-- The search in another unit makes the same moves. -/
theorem run_scale (settings : Settings K) (budget : Nat) (net : Network K) (degrees : Degrees K)
    (roster : Roster K) (level : Nat) (scratch : Scratch K) :
    run settings budget (net.scale k) (degrees.scale k) (roster.scale k) level (scratch.scale k) =
      (run settings budget net degrees roster level scratch).map (.scale k) := by
  have hcapacity : (roster.scale k).capacity = roster.capacity := rfl
  rw [run, run, Network.size_scale, hcapacity]
  split_ifs with hscaled hpos hpos
  · refine bind_hom (f := Prod.map id (Prod.map id (.scale k))) ?_ fun _ => rfl
    dsimp only [Scratch.scale]
    rw [Tally.blank_scale]
    exact settle_scale hk ⟨net, degrees, settings.threshold⟩ _ budget _ ⟨roster, _⟩
  · exact absurd ((mul_pos_iff_of_pos_left hk).1 hscaled) hpos
  · exact absurd ((mul_pos_iff_of_pos_left hk).2 hpos) hscaled
  · rfl

end Search

/-! ## Starts -/

namespace Roster

theorem sumAt_scale (r : Roster K) (c : Nat) : (r.scale k).sumAt c = k * r.sumAt c :=
  getD_scale k r.degreeSums c

/-- A roster whose sums are those of the degrees of its members stays so in another unit. -/
theorem Consistent.scale {r : Roster K} {d : Degrees K} (h : r.Consistent d) :
    (r.scale k).Consistent (d.scale k) := by
  have hdegreeAt : (d.scale k).degreeAt = fun v => k * d.degreeAt v :=
    funext fun v => getD_scale k d.byNode v
  have hsize : (d.scale k).byNode.size = d.byNode.size := Array.size_map
  refine ⟨?_, fun c hc => ?_⟩
  · rw [hsize]
    exact ⟨h.indexes.size_eq, h.indexes.communityAt_lt, h.indexes.members_eq,
      Array.size_map.trans h.indexes.size_degreeSums⟩
  · have hmembers : (r.scale k).membersOf c = r.membersOf c := rfl
    rw [sumAt_scale, h.sumAt_eq c hc, hmembers, hdegreeAt, ← Weight.sum_map_mul, List.map_map]
    rfl

/-- The only roster with these communities whose sums are right in the other unit. -/
theorem Consistent.eq_scale {r r' : Roster K} {d : Degrees K} (h : r.Consistent d)
    (hcounts : r.Counts d.byNode.size) (h' : r'.Consistent (d.scale k))
    (hcounts' : r'.Counts d.byNode.size) (hcapacity : r'.capacity = r.capacity)
    (hsame : r'.communityOf = r.communityOf) : r' = r.scale k := by
  have hsize : (d.scale k).byNode.size = d.byNode.size := Array.size_map
  exact (h.scale k).eq_of_communityOf h' (hsize ▸ hcounts) (hsize ▸ hcounts') hcapacity hsame

end Roster

end Communities
