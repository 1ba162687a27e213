import Communities.Proofs.LocalSearch.Gain
import Communities.Proofs.Modularity.Score
import Communities.Proofs.Roster.Occupied
import Communities.Proofs.Solver.Ascent

/-!
# What a level is worth

A level reports the quality of the communities that its search has found, which is above that of
single nodes by more than the threshold for each move. Where the search moves no node the
communities are the single nodes.

* `Level.Scored`: what the report of a level says of its network, `Search.Found.scored`: every
  level that is built says so.
* `Level.Scored.drawn`: the single nodes of the network that is drawn together from a level have the
  quality that the level reports.
-/

namespace Communities

/-- The quality of single nodes. -/
def aloneQuality {K : Type} [Field K] [DecidableEq K] (net : Network K) : K :=
  quality net.edges fun v => v

variable {K : Type} [Field K] [LinearOrder K] {current : Network K} {p : Partition}

/-- What the report of a level says. -/
structure Level.Scored (threshold : K) (current : Network K) (level : Level K) (p : Partition) :
    Prop where
  /-- The labels are those of the communities. -/
  labels_eq : level.labels = p.labels
  /-- There is one for each node, and there are no more communities than nodes. -/
  fits : p.Fits current.size
  /-- The modularity is that of the communities. -/
  modularity_eq : level.modularity = quality current.edges p.labelAt
  /-- Every move has gained more than the threshold. -/
  lt_of_moves : level.moves ≠ 0 →
    level.moves * threshold < level.modularity - aloneQuality current
  /-- Without a move nothing is gained. -/
  eq_of_still : level.moves = 0 → level.modularity = aloneQuality current
  /-- Every sweep but the last one has moved a node. -/
  sweeps_le : level.sweeps ≤ level.moves + 1

theorem quality_singletons (hnet : current.Canonical) :
    quality current.edges (Roster.singletons current.degrees).communityAt =
      aloneQuality current := by
  refine quality_congr hnet.endsBelow fun u hu v hv => ?_
  rw [Roster.communityAt_singletons (by simpa using hu),
    Roster.communityAt_singletons (by simpa using hv)]

theorem quality_toPartition (hnet : current.Canonical) {r : Roster K} (hr : r.Indexes current.size) :
    quality current.edges r.toPartition.labelAt = quality current.edges r.communityAt :=
  quality_congr hnet.endsBelow fun _ hu _ hv => hr.labelAt_toPartition_inj hu hv

theorem Search.Settled.length_le {W : Type} [Weight W] {t : Terrain W} {vs : List Nat}
    {r r' : Roster W} {sweeps : List (Sweep W)} {ending : Ending}
    (h : Settled t vs r sweeps ending r') :
    sweeps.length ≤ (sweeps.flatMap (·.moves)).length + 1 := by
  induction h with
  | cap => simp
  | last => simp
  | more _ moved _ ih =>
    have hmoved := List.length_pos_iff.2 moved
    simp only [List.flatMap_cons, List.length_append, List.length_cons]
    omega

/-- What is drawn together has the quality it had before. -/
theorem Partition.Fits.drawn (hnet : current.Canonical) (hp : p.Fits current.size)
    {reduced : Network K} (h : current.condense p = .ok reduced) :
    reduced.Canonical ∧ reduced.size = p.count ∧
      ∀ f, quality reduced.edges f = quality current.edges fun v => f (p.labelAt v) := by
  obtain ⟨reduced', h', hcanonical, hsize, hedges⟩ := hnet.condense_eq_ok_of_fits hp
  rw [h'] at h
  cases h
  exact ⟨hcanonical, hsize, fun f => quality_of_edgeSum fun φ hφ =>
    Network.edgeSum_condense hedges hφ⟩

theorem Level.Scored.drawn {threshold : K} {level : Level K} (hnet : current.Canonical)
    (h : level.Scored threshold current p) {reduced : Network K}
    (hdrawn : current.condense p = .ok reduced) :
    reduced.Canonical ∧ reduced.size = p.count ∧
      (∀ f, quality reduced.edges f = quality current.edges fun v => f (p.labelAt v)) ∧
      aloneQuality reduced = level.modularity := by
  obtain ⟨hcanonical, hsize, hquality⟩ := h.fits.drawn hnet hdrawn
  exact ⟨hcanonical, hsize, hquality, by rw [h.modularity_eq]; exact hquality _⟩

variable [IsStrictOrderedRing K]

/-- The roster that a search ends with, and what it has gained over single nodes, whether or not
there is weight. -/
structure Search.Gained (threshold : K) (current : Network K) (s : Search K) : Prop where
  /-- The roster is in step. -/
  indexes : s.roster.Indexes current.size
  /-- Every move has gained more than the threshold. -/
  lt_of_moves : s.moveCount ≠ 0 → s.moveCount * threshold <
    quality current.edges s.roster.communityAt - aloneQuality current
  /-- Without a move nothing is gained. -/
  eq_of_still : s.moveCount = 0 →
    quality current.edges s.roster.communityAt = aloneQuality current
  /-- Every sweep but the last one has moved a node. -/
  sweeps_le : s.sweeps.length ≤ s.moveCount + 1

theorem Search.Found.gained {settings : Settings K} {number : Nat} (hnet : current.Canonical)
    {s : Search K} (hfound : s.Found settings number current) :
    s.Gained settings.threshold current := by
  obtain ⟨⟨budget, scratch, hrun⟩, -⟩ := hfound
  have hstart := Roster.consistent_singletons current.degrees
  have halone := quality_singletons hnet
  have hindexes := ((Roster.consistent_iff hnet).1 hstart).1
  rcases Search.run_spec hnet hindexes hrun with ⟨-, rfl⟩ | ⟨hpos, hsettled⟩
  · exact ⟨hindexes, fun h => absurd rfl h, fun _ => halone, Nat.zero_le _⟩
  · have hsound : Terrain.Sound ⟨current, current.degrees, settings.threshold⟩ :=
      ⟨hnet, rfl, hpos⟩
    have hvs : ∀ v ∈ (settings.order.nodes number current.size).toList, v < current.size :=
      VisitOrder.lt_of_mem_toList_nodes
    refine ⟨hsound.indexes (hsettled.consistent hsound hstart hvs), fun hmoved => ?_,
      fun hstill => ?_, hsettled.length_le⟩
    · rw [← halone]
      exact hsettled.mul_lt_quality_sub hsound hstart hvs fun h => hmoved (by simp [moveCount, h])
    · have hsub := hsettled.quality_sub hsound hstart hvs
      rw [List.length_eq_zero_iff.1 hstill] at hsub
      rw [← halone]
      exact sub_eq_zero.1 hsub

omit [IsStrictOrderedRing K] in
/-- A search can always be scored. -/
theorem Search.Gained.level_eq_ok {threshold : K} {s : Search K} (hnet : current.Canonical)
    (h : s.Gained threshold current) : ∃ level p, s.level current = .ok (level, p) ∧
      level.moves = s.moveCount ∧ level.Scored threshold current p := by
  have hfits : s.roster.toPartition.Fits current.size := Partition.fits_ofLabels h.indexes.size_eq
  have hq := modularityByBlocks_eq_ok hnet hfits.toCovers (hnet.mul_lt_tableBytes hfits.count_le)
  have hsame := quality_toPartition hnet h.indexes
  refine ⟨_, _, Search.level_eq_ok_iff.2 ⟨rfl, _, hq, rfl⟩, rfl, rfl, hfits, rfl,
    fun hmoved => ?_, fun hstill => ?_, h.sweeps_le⟩
  · rw [hsame]; exact h.lt_of_moves hmoved
  · rw [hsame]; exact h.eq_of_still hstill

theorem Search.Found.scored {settings : Settings K} {number : Nat} (hnet : current.Canonical)
    {s : Search K} (hfound : s.Found settings number current) {level : Level K}
    (hlevel : s.level current = .ok (level, p)) :
    level.Scored settings.threshold current p := by
  obtain ⟨level', p', hlevel', -, hscored⟩ := (hfound.gained hnet).level_eq_ok hnet
  rw [hlevel'] at hlevel
  cases hlevel
  exact hscored

end Communities
