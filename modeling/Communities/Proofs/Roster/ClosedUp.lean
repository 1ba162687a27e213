import Communities.Proofs.Modularity.Score
import Communities.Proofs.Roster.History

/-!
# Closed up rosters

A roster that is made from the partition of another one has its communities with members and no
others, under consecutive ids in the same order. The nodes stay together as they were, so in exact
arithmetic no degree sum and no modularity changes, and the partition is the same again.

* `Roster.Opens`: the rosters before any move, also of fewer nodes than there are degrees;
  `Roster.Reached`: those that moves lead to.
* `Roster.Indexes.values_eq`: the ids with members are the ranking of the communities of the nodes,
  so `Roster.Indexes.labelAt_toPartition_iff`: a class of the partition has the members of the id at
  its place.
* `Roster.ClosesUp`: one roster is another one closed up; `Roster.InStep.exists_closedUp`: every
  roster that is in step can be, and `Roster.ClosesUp.degreeSums_eq`: its sums go along.
* `Roster.closed_up`: what is left of a roster that moves have led to.
-/

namespace Communities

variable {W : Type} [Weight W]

/-! ## Fewer nodes than degrees -/

namespace Degrees

/-- The degrees of the first `n` nodes. -/
def first (d : Degrees W) (n : Nat) : Degrees W := ⟨d.byNode.extract 0 n, d.total⟩

variable {d : Degrees W} {n : Nat}

omit [Weight W] in
theorem size_first (hn : n ≤ d.byNode.size) : (d.first n).byNode.size = n := by
  simp [first, hn]

omit [Weight W] in
theorem first_size (d : Degrees W) : d.first d.byNode.size = d := by
  simp [first]

omit [Weight W] in
theorem degree_first {v : Nat} (hv : v < n) : (d.first n).degree v = d.degree v := by
  have hentry : (d.byNode.extract 0 n)[v]? = d.byNode[v]? := by
    rw [Array.getElem?_extract]
    split
    · rw [Nat.zero_add]
    · rw [Array.getElem?_eq_none (by omega)]
  rw [degree, degree, fetch, fetch, first, hentry]

end Degrees

namespace Roster

variable {d : Degrees W} {r s start : Roster W} {p : Partition} {n v k : Nat}
  {moves : List (Nat × Nat)}

/-- A roster asks for no degrees but those of its nodes. -/
theorem ofPartition_first (hp : p.labels.size ≤ n) :
    ofPartition p (d.first n) = ofPartition p d := by
  have hsums : classSums p (d.first n) = classSums p d := by
    unfold classSums
    refine congrArg _ (funext fun table => foldlM_congr (fun x hx table => ?_) table)
    have hlt : x.2 < p.labels.size := by simpa using (List.mem_zipIdx hx).2.1
    dsimp only
    rw [Degrees.degree_first (Nat.lt_of_lt_of_le hlt hp)]
  rw [ofPartition, ofPartition, hsums]

theorem history_first (hmoves : ∀ m ∈ moves, m.1 < n) :
    r.history (d.first n) moves = r.history d moves := by
  refine foldlM_congr (fun m hm r => ?_) r
  dsimp only
  rw [Degrees.degree_first (hmoves _ hm)]

/-- The rosters of the first `n` of the nodes of `d` before any move. -/
inductive Opens (d : Degrees W) : Nat → Roster W → Prop
  /-- Every node alone. -/
  | alone : Opens d d.byNode.size (singletons d)
  /-- The classes of a partition of nodes that have a degree. -/
  | classes {p : Partition} {n : Nat} {r : Roster W} (le_size : n ≤ d.byNode.size)
      (covers : p.Covers n) (built : ofPartition p d = .ok r) : Opens d n r

theorem Opens.le_size (h : Opens d n start) : n ≤ d.byNode.size := by
  cases h with
  | alone => exact Nat.le_refl _
  | classes le_size => exact le_size

theorem Opens.starts (h : Opens d n start) : Starts (d.first n) start := by
  cases h with
  | alone => exact d.first_size.symm ▸ Starts.alone
  | classes le_size covers built =>
    refine .classes (p := _) ?_ ((ofPartition_first (Nat.le_of_eq covers.size_eq)).trans built)
    rwa [Degrees.size_first le_size]

/-- The rosters of the first `n` of the nodes of `d` that moves of nodes to communities lead to. -/
def Reached (d : Degrees W) (n : Nat) (r : Roster W) : Prop :=
  ∃ start moves, Opens d n start ∧ (∀ m ∈ moves, m.1 < n ∧ m.2 < start.capacity) ∧
    start.history d moves = .ok r

theorem Reached.le_size (h : Reached d n r) : n ≤ d.byNode.size := by
  obtain ⟨start, -, hopens, -⟩ := h
  exact hopens.le_size

/-- What every start has and every move keeps, the rosters that they lead to have. -/
private theorem Reached.of_steps (h : Reached d n r) (inv : Roster W → Prop)
    (h0 : ∀ start, Starts (d.first n) start → inv start)
    (keeps : ∀ r v c r', InStep (d.first n) r → inv r → v < (d.first n).byNode.size →
      c < r.capacity → Step (d.first n) r v c r' → inv r') : InStep (d.first n) r ∧ inv r := by
  obtain ⟨start, moves, hopens, hmoves, hr⟩ := h
  have hsize := Degrees.size_first hopens.le_size
  have hstarts := hopens.starts
  obtain ⟨r', hr', -, hstep, hinv⟩ :=
    exists_history inv hstarts.inStep (h0 start hstarts) keeps (by rwa [hsize])
  rw [history_first fun m hm => (hmoves m hm).1, hr] at hr'
  cases hr'
  exact ⟨hstep, hinv⟩

theorem Reached.inStep (h : Reached d n r) : InStep (d.first n) r :=
  (h.of_steps (fun _ => True) (fun _ _ => trivial) fun _ _ _ _ _ _ _ _ _ => trivial).1

theorem Reached.indexes (h : Reached d n r) : r.Indexes n :=
  Degrees.size_first h.le_size ▸ h.inStep.indexes

theorem Reached.consistent {K : Type} [Field K] [LinearOrder K] {d : Degrees K} {r : Roster K}
    (h : Reached d n r) : r.Consistent (d.first n) :=
  (h.of_steps (·.Consistent (d.first n)) (fun _ hstart => hstart.consistent)
    fun _ _ _ _ _ hr hv hc hstep => hstep.consistent hr hv hc).2

/-- The partition of such a roster, made into communities with all degrees or with those asked
for. -/
theorem Reached.ofPartition_eq (h : Reached d n r) :
    ofPartition r.toPartition (d.first n) = ofPartition r.toPartition d :=
  ofPartition_first (Nat.le_of_eq ((size_toPartition r).trans h.indexes.size_eq))

/-! ## The ids with members -/

/-- The ids of the communities with members, ascending. -/
def occupiedIds (r : Roster W) : List Nat :=
  (List.range r.capacity).filter fun c => !(r.membersOf c).isEmpty

omit [Weight W] in
theorem map_membersOf_occupiedIds (r : Roster W) :
    r.occupiedIds.map r.membersOf = r.members.toList.filter (!·.isEmpty) := by
  rw [toList_members, List.filter_map]
  rfl

omit [Weight W] in
theorem Indexes.values_eq (h : r.Indexes n) :
    (Ranking.ofList r.communityOf.toList).values.toList = r.occupiedIds := by
  refine List.Pairwise.eq_of_mem_iff (Ranking.values_pairwise _)
    (List.pairwise_lt_range.filter _) fun c => ?_
  rw [Array.mem_toList_iff, Ranking.mem_values, Array.mem_toList_iff, occupiedIds,
    List.mem_filter, List.mem_range, Bool.not_eq_true', List.isEmpty_eq_false_iff,
    Array.mem_iff_getElem]
  constructor
  · rintro ⟨v, hv, rfl⟩
    have hat : r.communityAt v = r.communityOf[v] := by simp [communityAt, hv]
    have hlt := h.communityAt_lt v (h.size_eq ▸ hv)
    rw [hat] at hlt
    refine ⟨hlt, fun hnone => (h.membersOf_eq_nil_iff hlt).1 hnone ⟨v, h.size_eq ▸ hv, hat⟩⟩
  · rintro ⟨hc, hsome⟩
    rw [Ne, h.membersOf_eq_nil_iff hc, not_not] at hsome
    obtain ⟨v, hv, rfl⟩ := hsome
    have hv' : v < r.communityOf.size := h.size_eq.symm ▸ hv
    exact ⟨v, hv', by simp [communityAt, hv']⟩

omit [Weight W] in
theorem Indexes.length_occupiedIds (h : r.Indexes n) :
    r.occupiedIds.length = r.toPartition.count := by
  rw [← h.values_eq]
  rfl

omit [Weight W] in
/-- The class at a place of the partition is the community with the id at that place. -/
theorem Indexes.labelAt_toPartition_iff (h : r.Indexes n) (hv : v < n)
    (hk : k < r.occupiedIds.length) :
    r.toPartition.labelAt v = k ↔ r.communityAt v = r.occupiedIds[k] := by
  have hv' : v < r.communityOf.size := h.size_eq.symm ▸ hv
  have hmem : r.communityAt v ∈ r.communityOf.toList := by simp [communityAt, hv']
  have hk' : k < (Ranking.ofList r.communityOf.toList).values.size := by
    rwa [← Array.length_toList, h.values_eq]
  have hvalue : (Ranking.ofList r.communityOf.toList).values[k] = r.occupiedIds[k] := by
    simp [← Array.getElem_toList, h.values_eq]
  have hlabel : r.toPartition.labelAt v =
      (Ranking.ofList r.communityOf.toList).rank (r.communityAt v) := Partition.labelAt_ofLabels hv'
  have hrank := Ranking.rank_values (Ranking.values_pairwise r.communityOf.toList) hk'
  rw [hlabel, ← hvalue]
  constructor
  · intro heq
    exact (Ranking.rank_inj hmem (Ranking.mem_values.1 (Array.getElem_mem hk'))).1
      (heq.trans hrank.symm)
  · intro heq
    rw [heq, hrank]

/-! ## Closing up -/

/-- The roster `s` is `r` with the ids of communities without members closed up. -/
structure ClosesUp (r s : Roster W) : Prop where
  /-- There are as many ids as `r` has communities with members. -/
  capacity_eq : s.capacity = r.occupied
  /-- Their members are the same, in the same order of ids. -/
  members_eq : s.members.toList = r.members.toList.filter (!·.isEmpty)
  /-- Every id has members. -/
  membersOf_ne_nil : ∀ c < s.capacity, s.membersOf c ≠ []
  /-- All ids are counted. -/
  occupied_eq : s.occupied = s.capacity
  /-- Each node is in the community whose id has become that of its own one. -/
  community_eq : ∀ v own, r.community v = .ok own →
    ∃ c, s.community v = .ok c ∧ r.occupiedIds[c]? = some own
  /-- The partition is the same. -/
  toPartition_eq : s.toPartition = r.toPartition

omit [Weight W] in
theorem Indexes.count_toPartition_le (h : r.Indexes n) : r.toPartition.count ≤ r.capacity := by
  rw [← h.length_occupiedIds, occupiedIds]
  simpa using List.length_filter_le (fun c => !(r.membersOf c).isEmpty) (List.range r.capacity)

theorem InStep.count_toPartition (h : InStep d r) : r.toPartition.count = r.occupied :=
  (Partition.count_ofLabels h.indexes.size_eq).trans h.counts.symm

omit [Weight W] in
/-- The members of a roster of the same nodes whose communities are the classes of `r`. -/
private theorem membersOf_closedUp (hr : r.Indexes n) (hs : s.Indexes n)
    (hcommunity : s.communityOf = r.toPartition.labels)
    (hcapacity : s.capacity = r.toPartition.count) (hk : k < r.occupiedIds.length) :
    s.membersOf k = r.membersOf r.occupiedIds[k] := by
  have hid : r.occupiedIds[k] < r.capacity :=
    List.mem_range.1 (List.mem_of_mem_filter (List.getElem_mem hk))
  have hk' : k < s.capacity := by rwa [hcapacity, ← hr.length_occupiedIds]
  rw [hs.membersOf_eq hk', hr.membersOf_eq hid]
  refine List.filter_congr fun v hv => ?_
  have hat : s.communityAt v = r.toPartition.labelAt v := by
    rw [communityAt, hcommunity]
    rfl
  rw [decide_eq_decide, hat]
  exact hr.labelAt_toPartition_iff (List.mem_range.1 hv) hk

/-- A roster of the same nodes whose communities are the classes of `r` is `r` closed up. -/
theorem InStep.closesUp (hr : InStep d r) (hs : InStep d s)
    (hcommunity : s.communityOf = r.toPartition.labels)
    (hcapacity : s.capacity = r.toPartition.count) : r.ClosesUp s := by
  have hsame : s.toPartition = r.toPartition := by
    rw [toPartition, hcommunity]
    exact Partition.ofLabels_ofLabels _
  have hmembers : s.members.toList = r.members.toList.filter (!·.isEmpty) := by
    rw [← map_membersOf_occupiedIds, toList_members]
    refine List.ext_getElem ?_ fun k _ hk => ?_
    · rw [List.length_map, List.length_range, List.length_map, hr.indexes.length_occupiedIds]
      exact hcapacity
    · rw [List.length_map] at hk
      rw [List.getElem_map, List.getElem_map, List.getElem_range]
      exact membersOf_closedUp hr.indexes hs.indexes hcommunity hcapacity hk
  refine ⟨hcapacity.trans hr.count_toPartition, hmembers, fun c hc hnone => ?_, ?_,
    fun v own hown => ?_, hsame⟩
  · have hmem : s.membersOf c ∈ s.members.toList := by
      rw [toList_members]
      exact List.mem_map_of_mem (List.mem_range.2 hc)
    rw [hmembers, hnone] at hmem
    simp at hmem
  · rw [← hs.count_toPartition, hsame]
    exact hcapacity.symm
  · obtain ⟨hv, rfl⟩ := hr.indexes.community_eq_ok_iff.1 hown
    have hlabel : r.toPartition.labelAt v = s.communityAt v := by
      rw [communityAt, hcommunity]
      rfl
    have hk : s.communityAt v < r.occupiedIds.length := by
      rw [hr.indexes.length_occupiedIds, ← hcapacity]
      exact hs.indexes.communityAt_lt v hv
    refine ⟨_, hs.indexes.community_eq hv, ?_⟩
    rw [List.getElem?_eq_getElem hk, (hr.indexes.labelAt_toPartition_iff hv hk).1 hlabel]

/-- A roster can be closed up if the lists that are left can be held. -/
theorem InStep.exists_closedUp (h : InStep d r) (htable : 24 * r.toPartition.count < tableBytes) :
    ∃ s, ofPartition r.toPartition d = .ok s ∧ r.ClosesUp s := by
  have hcovers := (Partition.fits_ofLabels h.indexes.size_eq).toCovers
  obtain ⟨s, hs, hcommunity, hcapacity, hconsistent, hcounts⟩ := ofPartition_eq_ok hcovers htable
  exact ⟨s, hs, h.closesUp ⟨hconsistent.indexes, hcounts, hconsistent.vacantZero⟩ hcommunity
    hcapacity⟩

/-- The sums go along with the members. -/
theorem ClosesUp.degreeSums_eq (h : r.ClosesUp s) (hr : r.Consistent d) (hs : s.Consistent d) :
    s.degreeSums.toList = r.occupiedIds.map r.sumAt := by
  have hkept : ∀ c ∈ r.occupiedIds, r.sumAt c = Weight.sum ((r.membersOf c).map d.degreeAt) :=
    fun c hc => hr.sumAt_eq c (List.mem_range.1 (List.mem_of_mem_filter hc))
  calc s.degreeSums.toList
    _ = (List.range s.capacity).map s.sumAt := by
      rw [← hs.indexes.size_degreeSums]
      exact toList_eq_map_getD s.degreeSums 0
    _ = s.members.toList.map fun nodes => Weight.sum (nodes.map d.degreeAt) := by
      rw [toList_members, List.map_map]
      exact List.map_congr_left fun c hc => hs.sumAt_eq c (List.mem_range.1 hc)
    _ = r.occupiedIds.map r.sumAt := by
      rw [h.members_eq, ← map_membersOf_occupiedIds, List.map_map]
      exact List.map_congr_left fun c hc => (hkept c hc).symm

section Exact

variable {K : Type} [Field K] [LinearOrder K] {d : Degrees K} {net : Network K} {r : Roster K}

/-- The partition scores what the communities score, under whatever bound. -/
theorem Indexes.modularity_toPartition (h : r.Indexes n) (hn : EndsBelow n net.edges)
    (hlabels : p.labels = r.communityOf) (hlt : ∀ v < n, p.labelAt v < p.count)
    (hcount : 8 * p.count < tableBytes) :
    ∃ q, modularity net r.toPartition = .ok q ∧ modularity net p = .ok q := by
  have hcovers : p.Covers n := ⟨hlabels ▸ h.size_eq, hlt⟩
  have hat : p.labelAt = r.communityAt := by
    funext v
    rw [Partition.labelAt, hlabels, communityAt]
  have hle : r.toPartition.count ≤ p.count := by
    have hused : usedLabels n r.communityAt ⊆ Finset.range p.count := fun c hc => by
      obtain ⟨v, hv, rfl⟩ := mem_usedLabels.1 hc
      exact Finset.mem_range.2 (hat ▸ hlt v hv)
    calc r.toPartition.count
      _ = (usedLabels n r.communityAt).card := Partition.count_ofLabels h.size_eq
      _ ≤ p.count := by simpa using Finset.card_le_card hused
  have hsame : quality net.edges r.toPartition.labelAt = quality net.edges p.labelAt :=
    quality_congr hn fun u hu v hv => by rw [hat, h.labelAt_toPartition_inj hu hv]
  refine ⟨quality net.edges p.labelAt, ?_, modularity_eq_ok_of_endsBelow hn hcovers hcount⟩
  rw [← hsame]
  have hcount' : 8 * r.toPartition.count < tableBytes := by omega
  exact modularity_eq_ok_of_endsBelow hn (Partition.fits_ofLabels h.size_eq).toCovers hcount'

end Exact

/-- A roster made from the partition of another one is that one with the ids of communities without
members closed up, whatever moves have led to it, and has the same partition. It can be made if the
lists of the other one can be held. In exact arithmetic the sums are those that the communities have
had, and the partition scores what the communities themselves do. -/
theorem closed_up :
    (∀ (W : Type) [Weight W] (d : Degrees W) (n : Nat) (r : Roster W), Reached d n r →
      24 * r.capacity < tableBytes →
      ∃ s, ofPartition r.toPartition d = .ok s ∧ r.ClosesUp s) ∧
    ∀ (K : Type) [Field K] [LinearOrder K] (d : Degrees K) (n : Nat) (r : Roster K),
      Reached d n r →
      (∀ s, ofPartition r.toPartition d = .ok s →
        s.degreeSums.toList = r.occupiedIds.map r.sumAt) ∧
      ∀ net : Network K, EndsBelow n net.edges → ∀ p : Partition, p.labels = r.communityOf →
        (∀ v < n, p.labelAt v < p.count) → 8 * p.count < tableBytes →
        ∃ q, modularity net r.toPartition = .ok q ∧ modularity net p = .ok q := by
  refine ⟨fun W _ d n r h htable => ?_, fun K _ _ d n r h => ⟨fun s hs => ?_,
    fun net hn p hlabels hlt hcount => h.indexes.modularity_toPartition hn hlabels hlt hcount⟩⟩
  · have hle := h.indexes.count_toPartition_le
    obtain ⟨s, hs, hclosed⟩ := h.inStep.exists_closedUp (by omega)
    exact ⟨s, h.ofPartition_eq.symm.trans hs, hclosed⟩
  · rw [← h.ofPartition_eq] at hs
    have hcovers := (Partition.fits_ofLabels h.inStep.indexes.size_eq).toCovers
    obtain ⟨s', hs', hclosed⟩ := h.inStep.exists_closedUp (table_lt_of_ofPartition hs)
    obtain rfl := Except.ok.inj (hs.symm.trans hs')
    exact hclosed.degreeSums_eq h.consistent (Starts.classes hcovers hs).consistent

/-- Two nodes go from the first and the third of four ids to the last and the first. -/
theorem closed_up_pair :
    ∃ r s, Reached Network.pair.degrees 2 r ∧ r.communityOf = #[3, 0] ∧
      ofPartition r.toPartition Network.pair.degrees = .ok s ∧ r.ClosesUp s ∧
      s.members = #[[1], [0]] ∧ s.degreeSums.toList = r.occupiedIds.map r.sumAt ∧
      ∃ q, modularity Network.pair r.toPartition = .ok q ∧
        modularity Network.pair ⟨#[3, 0], 4⟩ = .ok q := by
  obtain ⟨hany, hexact⟩ := closed_up
  have hstart : ofPartition ⟨#[0, 2], 4⟩ Network.pair.degrees =
      .ok ⟨#[0, 2], #[[0], [], [1], []], #[1, 0, 1, 0], 2⟩ := by decide +kernel
  have hhistory : (⟨#[0, 2], #[[0], [], [1], []], #[1, 0, 1, 0], 2⟩ : Roster ℚ).history
      Network.pair.degrees [(0, 3), (1, 0)] =
        .ok ⟨#[3, 0], #[[1], [], [], [0]], #[1, 0, 0, 1], 2⟩ := by decide +kernel
  have hreached : Reached Network.pair.degrees 2
      (⟨#[3, 0], #[[1], [], [], [0]], #[1, 0, 0, 1], 2⟩ : Roster ℚ) :=
    ⟨_, _, .classes (by decide) ⟨by decide, by decide⟩ hstart, by decide, hhistory⟩
  obtain ⟨s, hs, hclosed⟩ := hany ℚ _ _ _ hreached (by decide)
  obtain ⟨hsums, hscore⟩ := hexact ℚ _ _ _ hreached
  have hmembers : s.members = #[[1], [0]] := by
    rw [← Array.toList_inj, hclosed.members_eq]
    decide
  exact ⟨_, s, hreached, rfl, hs, hclosed, hmembers, hsums s hs,
    hscore Network.pair (Network.built_pair.canonical.endsBelow) ⟨#[3, 0], 4⟩ rfl (by decide)
      (by decide)⟩

end Roster

end Communities
