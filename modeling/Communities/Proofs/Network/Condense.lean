import Communities.Proofs.Network.Canonical
import Communities.Proofs.Network.EdgeSum
import Communities.Proofs.Partition

/-!
# Condensing

Drawing the classes of a partition together gives a canonical network again, whose nodes are the
classes and whose edges are the merged edges between them.

* `Network.Canonical` is what there is to know about the form of a network. `Network.Built` are the
  networks that the library can build, from edges or by condensing: `Network.Built.canonical`.
  `Network.exists_ofEdges`: edges between nodes can always be built.
* `Network.condense_eq_ok`: condensing a canonical network by a partition that covers it succeeds.
* `Network.populationAt_condense`: it adds the populations of a class up.
* `Network.edgeSum_condense`: it keeps every sum over edges that does not tell the members of a
  class apart.
-/

namespace Communities

namespace Network

variable {W : Type}

/-- The form of every network: its edges are in strictly ascending order between its nodes, its
links are those of its edges, and its ids fit 32 bits. -/
structure Canonical (net : Network W) : Prop where
  /-- Ids fit 32 bits. -/
  size_lt : net.size < idBound
  /-- The edges ascend. -/
  ascending : Ascending net.edges
  /-- The edges end at nodes. -/
  target_lt : ∀ e ∈ net.edges, e.target < net.size
  /-- The links are those of the edges. -/
  eq_linked : net = linked net.populations net.edges

theorem canonical_linked {populations : Array W} {es : List (Edge W)} (hes : Ascending es)
    (hlt : ∀ e ∈ es, e.target < populations.size) (hsize : populations.size < idBound) :
    (linked populations es).Canonical := by
  have hedges := edges_linked hes hlt
  refine ⟨?_, ?_, ?_, ?_⟩
  · rwa [size_linked]
  · rwa [hedges]
  · rwa [hedges, size_linked]
  · rw [hedges, populations_linked]

theorem Canonical.endsBelow {net : Network W} (h : net.Canonical) :
    ∀ e ∈ net.edges, e.source < net.size ∧ e.target < net.size := fun e he =>
  ⟨Nat.lt_of_le_of_lt (h.ascending.source_le e he) (h.target_lt e he), h.target_lt e he⟩

/-- A table with an entry for each node can be made. -/
theorem Canonical.mul_lt_tableBytes {net : Network W} (h : net.Canonical) {count : Nat}
    (hcount : count ≤ net.size) : 8 * count < tableBytes := by
  have hsize := h.size_lt
  unfold idBound at hsize
  unfold tableBytes
  omega

/-- So can a table with a list for each. -/
theorem Canonical.mul_lists_lt_tableBytes {net : Network W} (h : net.Canonical) {count : Nat}
    (hcount : count ≤ net.size) : 24 * count < tableBytes := by
  have hsize := h.size_lt
  unfold idBound at hsize
  unfold tableBytes
  omega

theorem Canonical.edgeCount_eq {net : Network W} (h : net.Canonical) :
    net.edgeCount = net.edges.length := by
  conv_lhs => rw [h.eq_linked]
  rfl

theorem Canonical.row_eq {net : Network W} (h : net.Canonical) {u : Nat} (hu : u < net.size) :
    net.row u = net.edges.filterMap (Edge.seenFrom u) := by
  conv_lhs => rw [h.eq_linked]
  exact row_linked (by simpa [Network.populations, size] using hu)

theorem Canonical.target_lt_of_mem_row {net : Network W} (h : net.Canonical) {u : Nat}
    (hu : u < net.size) {link : Link W} (hlink : link ∈ net.row u) : link.target < net.size := by
  rw [h.row_eq hu] at hlink
  obtain ⟨e, he, hseen⟩ := List.mem_filterMap.1 hlink
  obtain ⟨hs, ht⟩ := h.endsBelow e he
  unfold Edge.seenFrom at hseen
  split at hseen
  · cases hseen; exact ht
  · split at hseen
    · cases hseen; exact hs
    · cases hseen

theorem Canonical.links_eq {net : Network W} (h : net.Canonical) {u : Nat} (hu : u < net.size) :
    net.links u = .ok (net.row u) := by
  have hid : u < idBound := Nat.lt_trans hu h.size_lt
  have hu' : u < net.nodes.size := hu
  rw [links, Nat.mod_eq_of_lt hid, fetch_of_lt hu', ok_bind, if_pos (.inl hid), row,
    Array.getElem?_eq_getElem hu']
  rfl

section Build

variable [Weight W]

omit [Weight W] in
private theorem eq_linked_of_addEdges {populations : Array W} {es : List (Edge W)} {net : Network W}
    (h : (unlinked populations).addEdges es = .ok net) :
    net = linked populations es ∧ ∀ e ∈ es, e.target < populations.size := by
  have hlt := (lt_of_addEdges h).2
  simp only [unlinked, size, Array.size_map] at hlt
  rw [addEdges_unlinked hlt] at h
  cases h
  exact ⟨rfl, fun e he => (hlt e he).2⟩

private theorem eq_linked_of_ofEdges {n : Nat} {es : List (Edge W)} {net : Network W}
    (h : ofEdges n es = .ok net) : n < idBound ∧
      net = linked (Array.replicate n 1) (mergeParallel es) ∧
        ∀ e ∈ mergeParallel es, e.target < (Array.replicate n (1 : W)).size := by
  rw [ofEdges] at h
  split at h
  · next hn => exact ⟨hn, eq_linked_of_addEdges h⟩
  · cases h

theorem ofEdges_canonical {n : Nat} {es : List (Edge W)} {net : Network W}
    (h : ofEdges n es = .ok net) : net.Canonical := by
  obtain ⟨hn, rfl, hlt⟩ := eq_linked_of_ofEdges h
  exact canonical_linked (ascending_mergeParallel _) hlt (by simpa using hn)

theorem size_ofEdges {n : Nat} {es : List (Edge W)} {net : Network W}
    (h : ofEdges n es = .ok net) : net.size = n := by
  obtain ⟨-, rfl, -⟩ := eq_linked_of_ofEdges h
  rw [size_linked, Array.size_replicate]

/-- The edges of a network are those of the list, merged. -/
theorem edges_ofEdges {n : Nat} {es : List (Edge W)} {net : Network W}
    (h : ofEdges n es = .ok net) : net.edges = mergeParallel es := by
  obtain ⟨-, rfl, hlt⟩ := eq_linked_of_ofEdges h
  exact edges_linked (ascending_mergeParallel es) hlt

/-- Merging puts no end where there was none. -/
theorem lt_of_mem_mergeParallel {es : List (Edge W)} {n : Nat}
    (h : ∀ e ∈ es, e.source < n ∧ e.target < n) :
    ∀ e ∈ mergeParallel es, e.source < n ∧ e.target < n := by
  intro e he
  obtain ⟨e', he', hs, ht⟩ := (ends_mergeParallel es _ _).1 ⟨e, he, rfl, rfl⟩
  have hlt := h e' he'
  rw [← hs, ← ht]
  unfold Edge.raise
  split
  · exact hlt
  · exact hlt.symm

/-- A list of edges between nodes can be built. -/
theorem exists_ofEdges {n : Nat} {es : List (Edge W)} (hn : n < idBound)
    (hes : ∀ e ∈ es, e.source < n ∧ e.target < n) :
    ∃ net, ofEdges n es = .ok net ∧ net.size = n := by
  have hlt := lt_of_mem_mergeParallel hes
  refine ⟨linked (Array.replicate n 1) (mergeParallel es), ?_,
    by rw [size_linked, Array.size_replicate]⟩
  rw [ofEdges, if_pos hn, addEdges_unlinked (by simpa using hlt)]

/-- The population of a node, zero if there is no such node. -/
def populationAt (net : Network W) (v : Nat) : W := net.populations.getD v 0

private theorem zipIdx_nodes (net : Network W) :
    net.nodes.toList.zipIdx.map (fun x => (x.1.population, x.2)) =
      (List.range net.size).map fun v => (net.populationAt v, v) := by
  apply List.ext_getElem
  · simp [size]
  · intro v hv _
    have hv' : v < net.nodes.size := by simpa using hv
    simp [populationAt, populations, hv']

/-- The population of a class is the sum of those of its members. -/
private theorem classPopulations_eq_ok (net : Network W) {p : Partition} (hp : p.Covers net.size) :
    ∃ populations, net.classPopulations p = .ok populations ∧ populations.size = p.count ∧
      ∀ c < p.count, populations.getD c 0 = Weight.sum
        (((List.range net.size).filter (p.labelAt · = c)).map net.populationAt) := by
  have h := hp.foldlM_adjust (fun self : Node W => (· + self.population)) net.nodes.toList.zipIdx
    (fun x hx => by simpa [size] using (List.mem_zipIdx hx).2.1) (Array.replicate p.count (0 : W))
    (by simp)
  refine ⟨_, h.1, h.2, fun c hc => ?_⟩
  have hfold : net.nodes.toList.zipIdx.foldl
      (fun table x => table.modify (p.labelAt x.2) (· + x.1.population))
        (Array.replicate p.count (0 : W)) =
      (net.nodes.toList.zipIdx.map fun x => (x.1.population, x.2)).foldl
        (fun table x => table.modify (p.labelAt x.2) (· + x.1)) (Array.replicate p.count 0) := by
    rw [List.foldl_map]
  rw [hfold, zipIdx_nodes, List.foldl_map]
  exact getD_foldl_modify_add p.labelAt net.populationAt _ hc

omit [Weight W] in
private theorem classEdges_eq_ok {net : Network W} {p : Partition} (hnet : net.Canonical)
    (hp : p.Covers net.size) :
    net.classEdges p = .ok (net.edges.map (Edge.mapEnds p.labelAt)) :=
  mapM_eq_ok fun e he => by
    rw [hp.label_eq (hnet.endsBelow e he).1, hp.label_eq (hnet.endsBelow e he).2]
    rfl

theorem condense_eq_ok {net : Network W} {p : Partition} (hnet : net.Canonical)
    (hp : p.Covers net.size) (hcount : p.count < idBound) :
    ∃ net', net.condense p = .ok net' ∧ net'.Canonical ∧ net'.size = p.count ∧
      net'.edges = mergeParallel (net.edges.map (Edge.mapEnds p.labelAt)) := by
  obtain ⟨populations, hpop, hsize, -⟩ := classPopulations_eq_ok net hp
  have hlt : ∀ e ∈ mergeParallel (net.edges.map (Edge.mapEnds p.labelAt)),
      e.source < populations.size ∧ e.target < populations.size := by
    refine lt_of_mem_mergeParallel fun e he => ?_
    obtain ⟨e', he', rfl⟩ := List.mem_map.1 he
    have := hnet.endsBelow e' he'
    rw [hsize]
    exact ⟨hp.labelAt_lt _ this.1, hp.labelAt_lt _ this.2⟩
  have hasc := ascending_mergeParallel (net.edges.map (Edge.mapEnds p.labelAt))
  refine ⟨_, ?_, canonical_linked hasc (fun e he => (hlt e he).2) (hsize ▸ hcount),
    by rw [size_linked, hsize], edges_linked hasc fun e he => (hlt e he).2⟩
  rw [condense, if_pos hcount, hpop, ok_bind, classEdges_eq_ok hnet hp, ok_bind,
    addEdges_unlinked hlt]

/-- Only classes that fit 32-bit ids are drawn together. -/
theorem count_lt_of_condense {net net' : Network W} {p : Partition}
    (h : net.condense p = .ok net') : p.count < idBound := by
  rw [condense] at h
  split at h
  · assumption
  · cases h

theorem Canonical.condense_eq_ok_of_fits {net : Network W} {p : Partition} (hnet : net.Canonical)
    (hp : p.Fits net.size) :
    ∃ net', net.condense p = .ok net' ∧ net'.Canonical ∧ net'.size = p.count ∧
      net'.edges = mergeParallel (net.edges.map (Edge.mapEnds p.labelAt)) :=
  condense_eq_ok hnet hp.toCovers (Nat.lt_of_le_of_lt hp.count_le hnet.size_lt)

theorem condense_canonical {net net' : Network W} {p : Partition} (h : net.condense p = .ok net') :
    net'.Canonical := by
  rw [condense] at h
  split at h
  · next hcount =>
    obtain ⟨populations, hpop, h⟩ := bind_eq_ok_iff.1 h
    obtain ⟨es, -, h⟩ := bind_eq_ok_iff.1 h
    have hsize : populations.size = p.count :=
      foldlM_preserves (fun table => table.size = p.count) (fun table x table' ht hx => by
        obtain ⟨c, -, hx⟩ := bind_eq_ok_iff.1 hx
        obtain ⟨-, rfl⟩ := adjust_eq_ok_iff.1 hx
        rwa [Array.size_modify]) hpop (by simp)
    obtain ⟨rfl, hlt⟩ := eq_linked_of_addEdges h
    exact canonical_linked (ascending_mergeParallel _) hlt (hsize ▸ hcount)
  · cases h

theorem populationAt_condense {net net' : Network W} {p : Partition} (hp : p.Covers net.size)
    (h : net.condense p = .ok net') {c : Nat} (hc : c < p.count) :
    net'.populationAt c = Weight.sum
      (((List.range net.size).filter (p.labelAt · = c)).map net.populationAt) := by
  obtain ⟨populations, hpop, hsize, hsum⟩ := classPopulations_eq_ok net hp
  rw [condense] at h
  split at h
  · rw [hpop, ok_bind] at h
    obtain ⟨es, -, h⟩ := bind_eq_ok_iff.1 h
    obtain ⟨rfl, -⟩ := eq_linked_of_addEdges h
    rw [populationAt, populations_linked, hsum c hc]
  · cases h

/-- Every node that comes from a list of edges stands for one vertex. -/
theorem populationAt_ofEdges {n : Nat} {es : List (Edge W)} {net : Network W}
    (h : ofEdges n es = .ok net) {v : Nat} (hv : v < net.size) : net.populationAt v = 1 := by
  obtain ⟨-, rfl, -⟩ := eq_linked_of_ofEdges h
  rw [size_linked, Array.size_replicate] at hv
  simp [populationAt, hv]

/-- The networks that can be built. -/
inductive Built : Network W → Prop
  /-- From a list of edges. -/
  | ofEdges {n : Nat} {es : List (Edge W)} {net : Network W} :
    ofEdges n es = .ok net → Built net
  /-- From another network, by drawing classes together. -/
  | condense {net net' : Network W} {p : Partition} :
    Built net → net.condense p = .ok net' → Built net'

theorem Built.canonical {net : Network W} (h : Built net) : net.Canonical := by
  cases h with
  | ofEdges h => exact ofEdges_canonical h
  | condense _ h => exact condense_canonical h

end Build

/-! ## Sums -/

section Sums

variable {K : Type} [Field K] [LinearOrder K] {net net' : Network K} {p : Partition}

theorem edgeSum_condense (hedges : net'.edges = mergeParallel (net.edges.map (Edge.mapEnds p.labelAt)))
    {φ : Nat → Nat → K} (hφ : ∀ u v, φ u v = φ v u) :
    edgeSum net'.edges φ = edgeSum net.edges fun u v => φ (p.labelAt u) (p.labelAt v) := by
  rw [hedges, edgeSum_mergeParallel hφ, edgeSum_mapEnds]

theorem nonneg_condense [IsStrictOrderedRing K] (hnet : net.Canonical) (hp : p.Fits net.size)
    (hweights : ∀ e ∈ net.edges, 0 ≤ e.weight) (hdrawn : net.condense p = .ok net') :
    ∀ e ∈ net'.edges, 0 ≤ e.weight := by
  obtain ⟨net'', h', -, -, hedges⟩ := hnet.condense_eq_ok_of_fits hp
  rw [h'] at hdrawn
  cases hdrawn
  rw [hedges]
  refine nonneg_mergeParallel fun e he => ?_
  obtain ⟨e', he', rfl⟩ := List.mem_map.1 he
  exact hweights e' he'

end Sums

end Network

end Communities
