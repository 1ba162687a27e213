import Communities.Proofs.LocalSearch.Shrink
import Communities.Proofs.Solver.TrueScore

/-!
# The shape of a hierarchy

A hierarchy narrows. Its first level labels the vertices, each later one the communities of the
level before it, of which it leaves fewer, and no level skips a label. So the labels can be carried
through all levels, and what is together at one level stays together above it. This holds in any
arithmetic.

* `Level.Dense`: the labels of one level, `Level.Below`: those of two levels, one after the other.
* `Narrows`: what is said of a chain of levels; `Ascent.narrows`: every climb gives such a chain.
* `Hierarchy.WellFormed`: what follows for the partitions of the vertices;
  `Solver.cluster_wellFormed`: every run gives such a hierarchy; `Solver.cluster_nodeless`: without
  nodes there is one empty level.
-/

namespace Communities

variable {W : Type}

/-! ## Levels -/

namespace Level

/-- The number of communities of a level, each of which has a label. -/
def communities (level : Level W) : Nat := level.labels.toList.toFinset.card

/-- No label is skipped. -/
structure Dense (level : Level W) : Prop where
  /-- There is a community. -/
  communities_pos : 0 < level.communities
  /-- The labels are the numbers below that of the communities. -/
  mem_labels : ∀ x, x ∈ level.labels ↔ x < level.communities

/-- A level and the next one. -/
structure Below (level next : Level W) : Prop where
  /-- The next one labels the communities of the level. -/
  size_eq : next.labels.size = level.communities
  /-- There are fewer of them afterwards. -/
  fewer : next.communities < level.communities
  /-- A node has moved. -/
  moved : 0 < next.moves

theorem communities_eq {level : Level W} {c : Nat} (h : ∀ x, x ∈ level.labels ↔ x < c) :
    level.communities = c := by
  have hrange : level.labels.toList.toFinset = Finset.range c := by
    ext x
    rw [List.mem_toFinset, Array.mem_toList_iff, h, Finset.mem_range]
  rw [communities, hrange, Finset.card_range]

theorem Dense.of_mem {level : Level W} {c : Nat} (hpos : 0 < c)
    (h : ∀ x, x ∈ level.labels ↔ x < c) : level.Dense := by
  have hc := communities_eq h
  exact ⟨hc.symm ▸ hpos, fun x => hc.symm ▸ h x⟩

end Level

/-- Levels above `n` nodes, and the network after the last of them. -/
structure Narrows (n : Nat) (levels : List (Level W)) (coarse : Option (Network W)) : Prop where
  /-- The first level labels the nodes. -/
  size_first : ∀ first ∈ levels.head?, first.labels.size = n
  /-- No level skips a label. -/
  dense : ∀ level ∈ levels, level.Dense
  /-- Every later level labels the communities of the one before it, and leaves fewer. -/
  below : levels.IsChain Level.Below
  /-- Only if the first level moves no node nothing is drawn together. -/
  coarse_eq_none_iff : coarse = none ↔ ∃ first ∈ levels.head?, first.moves = 0
  /-- What is drawn together has the communities of the last level for nodes. -/
  size_coarse : ∀ net, coarse = some net → net.size = (levels.map Level.communities).getLastD n

/-! ## A chain of levels -/

section Ascent

variable [Weight W] {settings : Settings W} {number : Nat} {current : Network W}

theorem Search.Found.count_lt (hnet : current.Canonical) {s : Search W}
    (h : s.Found settings number current) {level : Level W} {p : Partition}
    (hlevel : s.level current = .ok (level, p)) (hmoved : s.moveCount ≠ 0) :
    p.count < current.size := by
  obtain ⟨⟨budget, scratch, hrun⟩, -⟩ := h
  obtain ⟨rfl, -⟩ := level_eq_ok_iff.1 hlevel
  exact count_lt_of_run hnet hrun hmoved

/-- What a search makes of the nodes of its network. -/
structure Level.Draws (level : Level W) (n : Nat) (p : Partition) : Prop where
  /-- The level labels the nodes. -/
  size_eq : level.labels.size = n
  /-- It skips no label. -/
  dense : level.Dense
  /-- The communities are the classes. -/
  communities_eq : level.communities = p.count
  /-- There are no more of them than nodes. -/
  fits : p.Fits n
  /-- If any node has moved there are fewer. -/
  fewer : 0 < level.moves → p.count < n

theorem Search.Found.draws (hnet : current.Canonical) (hpos : 0 < current.size) {s : Search W}
    (h : s.Found settings number current) {level : Level W} {p : Partition}
    (hlevel : s.level current = .ok (level, p)) : level.Draws current.size p := by
  have hfewer := h.count_lt hnet hlevel
  obtain ⟨rfl, q, -, rfl⟩ := level_eq_ok_iff.1 hlevel
  have hfits : s.roster.toPartition.Fits current.size :=
    Partition.fits_ofLabels (h.indexes hnet).size_eq
  have hmem : ∀ x, x ∈ s.roster.toPartition.labels ↔ x < s.roster.toPartition.count := fun x =>
    Partition.mem_labels_ofLabels
  have hcount : 0 < s.roster.toPartition.count :=
    Nat.zero_lt_of_lt (hfits.labelAt_lt 0 hpos)
  exact ⟨hfits.size_eq, .of_mem hcount hmem, Level.communities_eq hmem, hfits,
    fun hmoved => hfewer (Nat.ne_of_gt hmoved)⟩

theorem Level.Draws.size_drawn {level : Level W} {p : Partition} (hnet : current.Canonical)
    (h : level.Draws current.size p) {reduced : Network W}
    (hdrawn : current.condense p = .ok reduced) :
    reduced.Canonical ∧ reduced.size = level.communities := by
  obtain ⟨reduced', h', hcanonical, hsize, -⟩ := hnet.condense_eq_ok_of_fits h.fits
  rw [h'] at hdrawn
  cases hdrawn
  exact ⟨hcanonical, hsize.trans h.communities_eq.symm⟩

theorem Ascent.narrows {levels : List (Level W)} {coarse : Option (Network W)}
    (hnet : current.Canonical) (hpos : 0 < current.size)
    (h : Ascent settings number current levels coarse) :
    Narrows current.size levels coarse ∧ (0 < number → ∀ first ∈ levels.head?,
      first.communities < current.size ∧ 0 < first.moves) := by
  induction h with
  | rest =>
    refine ⟨⟨by simp, by simp, .nil, by simp, ?_⟩, by simp⟩
    rintro net ⟨⟩
    rfl
  | still found still scored =>
    have hdraws := found.draws hnet hpos scored
    obtain ⟨-, q, -, rfl⟩ := Search.level_eq_ok_iff.1 scored
    refine ⟨⟨?_, ?_, .singleton _, ?_, by simp⟩, fun h => absurd h (Nat.lt_irrefl 0)⟩
    · simpa using hdraws.size_eq
    · simpa using hdraws.dense
    · simpa using still
  | top found moved scored drawn =>
    have hdraws := found.draws hnet hpos scored
    obtain ⟨-, hsize⟩ := hdraws.size_drawn hnet drawn
    have hmoved : 0 < _ := Nat.pos_of_ne_zero (Search.moves_level scored ▸ moved)
    have hfewer := hdraws.communities_eq ▸ hdraws.fewer hmoved
    refine ⟨⟨?_, ?_, .singleton _, ?_, ?_⟩, ?_⟩
    · simpa using hdraws.size_eq
    · simpa using hdraws.dense
    · simpa using Nat.ne_of_gt hmoved
    · rintro net ⟨⟩
      exact hsize
    · rintro - first ⟨⟩
      exact ⟨hfewer, hmoved⟩
  | step found moved scored drawn _ _ above ih =>
    have hdraws := found.draws hnet hpos scored
    obtain ⟨hcanonical, hsize⟩ := hdraws.size_drawn hnet drawn
    have hmoved : 0 < _ := Nat.pos_of_ne_zero (Search.moves_level scored ▸ moved)
    have hfewer := hdraws.communities_eq ▸ hdraws.fewer hmoved
    obtain ⟨habove, hnext⟩ := ih hcanonical (hsize ▸ hdraws.dense.communities_pos)
    have hnext := hnext (Nat.succ_pos _)
    refine ⟨⟨?_, List.forall_mem_cons.2 ⟨hdraws.dense, habove.dense⟩,
      List.isChain_cons.2 ⟨fun next hlevel => ?_, habove.below⟩, ?_, fun net hcoarse => ?_⟩, ?_⟩
    · simpa using hdraws.size_eq
    · obtain ⟨hlt, hpos⟩ := hnext next hlevel
      exact ⟨hsize ▸ habove.size_first next hlevel, hsize ▸ hlt, hpos⟩
    · obtain ⟨top, rfl⟩ := above.exists_coarse (Nat.succ_pos _)
      simpa using Nat.ne_of_gt hmoved
    · rw [habove.size_coarse net hcoarse, List.map_cons, List.getLastD_cons, hsize]
    · rintro - first ⟨⟩
      exact ⟨hfewer, hmoved⟩

end Ascent

/-! ## The partitions of the vertices -/

/-- A hierarchy over `n` vertices that narrows, with a partition of the vertices at every level that
there is. -/
structure Hierarchy.WellFormed (h : Hierarchy W) (n : Nat) : Prop extends
    Narrows n h.levels h.coarse where
  /-- There is a level. -/
  levels_ne_nil : h.levels ≠ []
  /-- The partition at a level gives each vertex a label, and it uses all labels of the level. -/
  partitionAt_eq_some : ∀ k level, h.levels[k]? = some level →
    ∃ labels, h.partitionAt k = .ok (some labels) ∧ labels.size = n ∧
      ∀ x, x ∈ labels ↔ x < level.communities
  /-- There is none above the last level. -/
  partitionAt_eq_none : ∀ k, h.levels.length ≤ k → h.partitionAt k = .ok none
  /-- What is together at a level is so at the next one. -/
  together : ∀ k fine coarse, h.partitionAt k = .ok (some fine) →
    h.partitionAt (k + 1) = .ok (some coarse) →
      ∀ u v : Nat, fine[u]? = fine[v]? → coarse[u]? = coarse[v]?

section Partitions

variable {n k : Nat} {h : Hierarchy W}

theorem Narrows.partitionAt_eq_some (hh : Narrows n h.levels h.coarse) {level : Level W}
    (hk : h.levels[k]? = some level) :
    ∃ labels, h.partitionAt k = .ok (some labels) ∧ labels.size = n ∧
      ∀ x, x ∈ labels ↔ x < level.communities := by
  induction k generalizing level with
  | zero =>
    obtain ⟨levels, coarse⟩ := h
    cases levels with
    | nil => cases hk
    | cons first rest =>
      cases hk
      exact ⟨level.labels, Hierarchy.partitionAt_eq (Nat.succ_pos _), hh.size_first _ rfl,
        (hh.dense level List.mem_cons_self).mem_labels⟩
  | succ k ih =>
    obtain ⟨hlt, hlevel⟩ := List.getElem?_eq_some_iff.1 hk
    obtain ⟨fine, hfine, hsize, hmem⟩ := ih (List.getElem?_eq_getElem (Nat.lt_of_succ_lt hlt))
    have hbelow := List.isChain_iff_getElem.1 hh.below k hlt
    rw [hlevel] at hbelow
    obtain ⟨labels, hcompose, hsize', hmem', -⟩ :=
      Hierarchy.exists_compose fun x => hbelow.size_eq.symm ▸ hmem x
    refine ⟨labels, ?_, hsize'.trans hsize, fun x => (hmem' x).trans ?_⟩
    · rw [Hierarchy.partitionAt_succ hk hfine, hcompose]
      rfl
    · exact (hh.dense level (List.mem_of_getElem? hk)).mem_labels x

theorem Hierarchy.exists_level {labels : Array Nat} (hk : h.partitionAt k = .ok (some labels)) :
    ∃ level, h.levels[k]? = some level := by
  have hlt : k < h.levels.length := by
    by_contra hge
    rw [partitionAt_eq_none (Nat.not_lt.1 hge)] at hk
    cases hk
  exact ⟨_, List.getElem?_eq_getElem hlt⟩

theorem Narrows.together (hh : Narrows n h.levels h.coarse) {fine coarse : Array Nat}
    (hfine : h.partitionAt k = .ok (some fine))
    (hcoarse : h.partitionAt (k + 1) = .ok (some coarse)) {u v : Nat} (huv : fine[u]? = fine[v]?) :
    coarse[u]? = coarse[v]? := by
  obtain ⟨level, hk⟩ := Hierarchy.exists_level hfine
  obtain ⟨next, hk'⟩ := Hierarchy.exists_level hcoarse
  obtain ⟨fine', hfine', -, hmem⟩ := hh.partitionAt_eq_some hk
  rw [hfine] at hfine'
  cases hfine'
  obtain ⟨hlt, hlevel⟩ := List.getElem?_eq_some_iff.1 hk
  obtain ⟨hlt', hnext⟩ := List.getElem?_eq_some_iff.1 hk'
  have hbelow := List.isChain_iff_getElem.1 hh.below k hlt'
  rw [hlevel, hnext] at hbelow
  obtain ⟨labels, hcompose, -, -, htogether⟩ :=
    Hierarchy.exists_compose fun x => hbelow.size_eq.symm ▸ hmem x
  rw [Hierarchy.partitionAt_succ hk' hfine, hcompose] at hcoarse
  cases hcoarse
  exact htogether u v huv

theorem Hierarchy.WellFormed.communities_le (hh : h.WellFormed n) {level : Level W}
    (hlevel : level ∈ h.levels) : level.communities ≤ n := by
  obtain ⟨k, hk⟩ := List.mem_iff_getElem?.1 hlevel
  obtain ⟨labels, -, hsize, hmem⟩ := hh.partitionAt_eq_some k level hk
  have hsame : ({ level with labels := labels } : Level W).communities = level.communities :=
    Level.communities_eq hmem
  rw [← hsame, ← hsize]
  exact List.toFinset_card_le _

theorem Narrows.wellFormed (hh : Narrows n h.levels h.coarse) (hne : h.levels ≠ []) :
    h.WellFormed n :=
  { hh with
    levels_ne_nil := hne
    partitionAt_eq_some := fun _ _ => hh.partitionAt_eq_some
    partitionAt_eq_none := fun _ => Hierarchy.partitionAt_eq_none
    together := fun _ _ _ hfine hcoarse _ _ => hh.together hfine hcoarse }

end Partitions

namespace Solver

/-! ## Every run -/

variable [Weight W] {net base : Network W} {seed : Option (Array Nat)} {labels : Array Nat}

/-- Carrying the first level back to the vertices keeps its labels. -/
theorem Start.narrows (hnet : net.Canonical) (hseed : checkSeed (W := W) net.size seed = .ok ())
    (h : Start net seed base labels) {levels pulled : List (Level W)}
    {coarse : Option (Network W)} (hne : levels ≠ []) (hlevels : Narrows base.size levels coarse)
    (hback : Communities.pullBack (seed.map Partition.ofLabels) levels = .ok pulled) :
    pulled ≠ [] ∧ Narrows net.size pulled coarse := by
  obtain ⟨-, hsize, hmem⟩ := h.mem_labels hnet hseed
  obtain ⟨first, rest, rfl⟩ := List.exists_cons_of_ne_nil hne
  have hfirst := hlevels.size_first first rfl
  obtain ⟨back, hcompose, rfl⟩ := h.pullBack hfirst hback
  obtain ⟨back', hcompose', hsize', hmem', -⟩ :=
    Hierarchy.exists_compose fun x => hfirst.symm ▸ hmem x
  rw [hcompose] at hcompose'
  cases hcompose'
  obtain ⟨hdense, hrest⟩ := List.forall_mem_cons.1 hlevels.dense
  have hlabels : ∀ x, x ∈ back ↔ x < first.communities := fun x =>
    (hmem' x).trans (hdense.mem_labels x)
  have hsame : ({ first with labels := back } : Level W).communities = first.communities :=
    Level.communities_eq hlabels
  refine ⟨List.cons_ne_nil _ _, ⟨?_, List.forall_mem_cons.2
    ⟨.of_mem hdense.communities_pos hlabels, hrest⟩, ?_, ?_, ?_⟩⟩
  · rintro _ ⟨⟩
    exact hsize'.trans hsize
  · obtain ⟨hnext, hbelow⟩ := List.isChain_cons.1 hlevels.below
    refine List.isChain_cons.2 ⟨fun next hlevel => ?_, hbelow⟩
    obtain ⟨hsize, hfewer, hmoved⟩ := hnext next hlevel
    exact ⟨hsame.symm ▸ hsize, hsame.symm ▸ hfewer, hmoved⟩
  · simpa using hlevels.coarse_eq_none_iff
  · intro net hnet
    rw [hlevels.size_coarse net hnet, List.map_cons, List.map_cons, hsame]
    rfl

omit [Weight W] in
theorem size_pos_of_edgeCount (hnet : net.Canonical) (hedges : net.edgeCount ≠ 0) :
    0 < net.size := by
  rw [hnet.edgeCount_eq] at hedges
  obtain ⟨e, he⟩ := List.exists_mem_of_length_pos (Nat.pos_of_ne_zero hedges)
  exact Nat.zero_lt_of_lt (hnet.target_lt e he)

/-- On no nodes the hierarchy is one level without labels. -/
theorem cluster_nodeless (hnone : net.size = 0) (hedges : net.edgeCount = 0) {s s' : Solver W}
    {budget : Nat} {run : Run W} (hrun : s.cluster budget net seed = .ok (run, s'))
    {h : Hierarchy W} (hh : run.result = .ok h) : h = ⟨[⟨#[], 0, 0, 0⟩], none⟩ := by
  have haccepted := (cluster_spec hrun hh).1
  have hempty : seed.getD (Array.range net.size) = #[] := by
    rw [← Array.size_eq_zero_iff, ← hnone]
    cases seed with
    | none => exact Array.size_range
    | some given => exact checkSeed_eq_ok_iff.1 haccepted.seed_ok given rfl
  rw [haccepted.cluster_eq, search_edgeless hedges, hempty] at hrun
  cases hrun
  cases hh
  rfl

/-- Every run on a network with edges gives a hierarchy that narrows, whose partitions of the
vertices can be read off at each of its levels, and only there. -/
theorem cluster_wellFormed (hnet : net.Built) (hedges : net.edgeCount ≠ 0) {s s' : Solver W}
    {budget : Nat} {run : Run W} (hrun : s.cluster budget net seed = .ok (run, s'))
    {h : Hierarchy W} (hh : run.result = .ok h) : h.WellFormed net.size := by
  obtain ⟨haccepted, hanswers⟩ := cluster_spec hrun hh
  have hcanonical := hnet.canonical
  cases hanswers with
  | edgeless hnone => exact absurd hnone hedges
  | @climbed base labels levels pulled coarse start ascent back =>
    obtain ⟨hbase, hsize, hmem⟩ := start.mem_labels hcanonical haccepted.seed_ok
    have hpos : 0 < base.size := by
      have hvertices : 0 < labels.size := hsize.symm ▸ size_pos_of_edgeCount hcanonical hedges
      exact Nat.zero_lt_of_lt ((hmem _).1 (Array.getElem_mem hvertices))
    obtain ⟨hne, hpulled⟩ := start.narrows hcanonical haccepted.seed_ok ascent.ne_nil
      (ascent.narrows hbase hpos).1 back
    exact hpulled.wellFormed hne

theorem cluster_kite_wellFormed :
    Network.kite.edgeCount ≠ 0 ∧
    ∃ run s' h, (ofSettings ⟨1 / 1000, .multilevel none, .ascending, none, false⟩ :
          Solver ℚ).cluster 2 Network.kite none = .ok (run, s') ∧ run.result = .ok h ∧
      h.levels = [⟨#[1, 0, 0, 1], -1 / 72, 2, 2⟩, ⟨#[0, 0], 0, 2, 1⟩] ∧ h.WellFormed 4 := by
  obtain ⟨run, s', h, hrun, hh, hlevels⟩ := cluster_kite
  have hedges : Network.kite.edgeCount ≠ 0 := by decide
  exact ⟨hedges, run, s', h, hrun, hh, hlevels,
    cluster_wellFormed Network.built_kite hedges hrun hh⟩

end Solver

end Communities
