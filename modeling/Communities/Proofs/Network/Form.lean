import Communities.Proofs.Network.Conserve
import Communities.Proofs.Network.SameEdges

/-!
# The form of a network

No row of a network is ever sorted. The edges are, with those merged that have the same ends, and
each is entered in the rows of its two ends when its turn comes. In any arithmetic this gives rows
that ascend and name every edge from both sides; in exact arithmetic it hides all of the list of
edges but the weight between any two nodes.

* `mem_mergeParallel_iff`: the merged edges, with their weights to the last bit.
* `Network.Regular`: the form of the rows, and `Network.Canonical.regular`: every network has it.
* `Network.ofEdges_eq_error_iff`: an edge between nodes that are not there is the only mistake.
* `Network.Represents`: a network says what a list of edges does, and nothing else.
* `Rearranges`: a list names the same edges in another order, or from their other ends.
* `Network.canonical_form`: all this of the networks that are built or condensed.
-/

namespace Communities

variable {W : Type}

namespace Edge

variable {e : Edge W} {u v : Nat} {w : W}

/-- The edge, named from its other end. -/
def turn (e : Edge W) : Edge W := ⟨e.target, e.source, e.weight⟩

theorem raise_turn (e : Edge W) : e.turn.raise = e.raise := by
  obtain ⟨s, t, w⟩ := e
  unfold turn raise
  rcases Nat.lt_trichotomy s t with h | rfl | h
  · simp [Nat.le_of_lt h, Nat.not_le.2 h]
  · rfl
  · simp [Nat.le_of_lt h, Nat.not_le.2 h]

theorem weight_raise (e : Edge W) : e.raise.weight = e.weight := by
  unfold raise
  split <;> rfl

theorem parallel_raise_iff {m : Edge W} (hm : m.source ≤ m.target) :
    m.Parallel e.raise ↔ e.Joins m.source m.target := by
  unfold Parallel raise Joins
  split
  · omega
  · dsimp only
    omega

/-- A link of a node is an edge between the node and where it leads. -/
theorem seenFrom_eq_some_iff (h : e.source ≤ e.target) :
    e.seenFrom u = some ⟨v, w⟩ ↔ e = ⟨min u v, max u v, w⟩ := by
  obtain ⟨s, t, x⟩ := e
  simp only at h
  unfold seenFrom
  rcases Nat.lt_or_ge v u with hvu | huv
  · simp only [Nat.min_eq_right (Nat.le_of_lt hvu), Nat.max_eq_left (Nat.le_of_lt hvu), mk.injEq]
    split
    · simp only [Option.some.injEq, Link.mk.injEq]; omega
    · split
      · simp only [Option.some.injEq, Link.mk.injEq]; tauto
      · simp; tauto
  · simp only [Nat.min_eq_left huv, Nat.max_eq_right huv, mk.injEq]
    split
    · simp only [Option.some.injEq, Link.mk.injEq]; tauto
    · split
      · simp only [Option.some.injEq, Link.mk.injEq]; omega
      · simp; tauto

end Edge

/-- The merged edges are the pairs of ends that occur, each with zero plus the weights of its
edges in their order in the list. -/
theorem mem_mergeParallel_iff [Weight W] {es : List (Edge W)} {m : Edge W} :
    m ∈ mergeParallel es ↔ m.source ≤ m.target ∧ (∃ e ∈ es, e.Joins m.source m.target) ∧
      m.weight = Weight.sum ((es.filter (·.Joins m.source m.target)).map (·.weight)) := by
  have hascending := ascending_mergeParallel es
  have hweight : ∀ m ∈ mergeParallel es,
      m.weight = Weight.sum ((es.filter (·.Joins m.source m.target)).map (·.weight)) := by
    intro m hm
    have hle := hascending.source_le m hm
    rw [weight_mergeParallel hm, parallelWeight, List.filter_map, List.map_map]
    simp only [Function.comp_def, Edge.weight_raise, Edge.parallel_raise_iff hle]
  constructor
  · intro hm
    exact ⟨hascending.source_le m hm, joins_mergeParallel.1 ⟨m, hm, .inl ⟨rfl, rfl⟩⟩, hweight m hm⟩
  · rintro ⟨hle, hjoins, hw⟩
    obtain ⟨m', hm', hends⟩ := joins_mergeParallel.2 hjoins
    have hparallel := hends.parallel (hascending.source_le m' hm') hle
    have hw' := hweight m' hm'
    rw [hparallel.1, hparallel.2, ← hw] at hw'
    exact hparallel.eq hw' ▸ hm'

namespace Network

/-! ## Rows -/

/-- The form of the rows of a network. -/
structure Regular (net : Network W) : Prop where
  /-- The edges ascend strictly, each from its lower end. -/
  ascending : Ascending net.edges
  /-- They are counted. -/
  edgeCount_eq : net.edgeCount = net.edges.length
  /-- Every node has its row. -/
  links_eq : ∀ u < net.size, net.links u = .ok (net.row u)
  /-- The links of a node ascend strictly. -/
  pairwise_row : ∀ u < net.size, (net.row u).Pairwise fun a b => a.target < b.target
  /-- They are the edges that end at the node. -/
  mem_row : ∀ u < net.size, ∀ v w, ⟨v, w⟩ ∈ net.row u ↔ ⟨min u v, max u v, w⟩ ∈ net.edges
  /-- Where a link leads, another one of the same weight leads back. -/
  symmetric : ∀ u < net.size, ∀ v w, ⟨v, w⟩ ∈ net.row u → v < net.size ∧ ⟨u, w⟩ ∈ net.row v
  /-- A loop is one link of its node. -/
  loops : ∀ u < net.size, (net.row u).countP (·.target = u) =
    net.edges.countP fun e => e.source = u ∧ e.target = u

variable {net : Network W} {u : Nat}

theorem Canonical.pairwise_row (h : net.Canonical) (hu : u < net.size) :
    (net.row u).Pairwise fun a b => a.target < b.target := by
  rw [h.row_eq hu, List.pairwise_filterMap]
  refine h.ascending.pairwise.imp_of_mem fun {e e'} he he' hbefore link hlink link' hlink' => ?_
  have hle := h.ascending.source_le e he
  have hle' := h.ascending.source_le e' he'
  rw [Edge.seenFrom_eq_some_iff (v := link.target) (w := link.weight) hle] at hlink
  rw [Edge.seenFrom_eq_some_iff (v := link'.target) (w := link'.weight) hle'] at hlink'
  subst hlink hlink'
  simp only [Edge.Before] at hbefore
  omega

theorem Canonical.mem_row_iff (h : net.Canonical) (hu : u < net.size) {v : Nat} {w : W} :
    ⟨v, w⟩ ∈ net.row u ↔ ⟨min u v, max u v, w⟩ ∈ net.edges := by
  rw [h.row_eq hu, List.mem_filterMap]
  constructor
  · rintro ⟨e, he, hseen⟩
    rw [Edge.seenFrom_eq_some_iff (h.ascending.source_le e he)] at hseen
    exact hseen ▸ he
  · intro he
    exact ⟨_, he, (Edge.seenFrom_eq_some_iff (h.ascending.source_le _ he)).2 rfl⟩

theorem Canonical.regular (h : net.Canonical) : net.Regular where
  ascending := h.ascending
  edgeCount_eq := h.edgeCount_eq
  links_eq _ hu := h.links_eq hu
  pairwise_row _ hu := h.pairwise_row hu
  mem_row _ hu _ _ := h.mem_row_iff hu
  symmetric u hu v w hlink := by
    have hv := h.target_lt_of_mem_row hu hlink
    refine ⟨hv, ?_⟩
    rw [h.mem_row_iff hv, Nat.min_comm, Nat.max_comm]
    exact (h.mem_row_iff hu).1 hlink
  loops u hu := by
    rw [h.row_eq hu, List.countP_filterMap]
    refine List.countP_congr fun e _ => ?_
    unfold Edge.seenFrom
    by_cases hs : e.source = u
    · simp [hs]
    · by_cases ht : e.target = u <;> simp [hs, ht]

/-! ## Networks from lists -/

private theorem fault_of_adjust {α : Type} {table : Array α} {i : Nat} {f : α → α} {fault : Fault}
    (h : adjust table i f = .error fault) : fault = .outOfRange := by
  unfold adjust at h
  split at h <;> cases h
  rfl

private theorem fault_of_addEdge {e : Edge W} {fault : Fault} (h : net.addEdge e = .error fault) :
    fault = .outOfRange := by
  unfold addEdge at h
  rcases bind_eq_error_iff.1 h with h | ⟨nodes, -, h⟩
  · exact fault_of_adjust h
  · split at h
    · cases h
    · rcases bind_eq_error_iff.1 h with h | ⟨nodes', -, h⟩
      · exact fault_of_adjust h
      · cases h

theorem fault_of_addEdges {es : List (Edge W)} {fault : Fault}
    (h : net.addEdges es = .error fault) : fault = .outOfRange := by
  unfold addEdges at h
  induction es generalizing fault with
  | nil => cases h
  | cons e es ih =>
    rw [List.foldrM_cons] at h
    rcases bind_eq_error_iff.1 h with h | ⟨net', -, h⟩
    · exact ih h
    · exact fault_of_addEdge h

variable [Weight W] {n : Nat} {es es' : List (Edge W)}

theorem ofEdges_eq_error_iff (hn : n < idBound) : ofEdges n es = .error .outOfRange ↔
    ∃ e ∈ es, n ≤ e.source ∨ n ≤ e.target := by
  constructor
  · intro h
    by_contra hnone
    simp only [not_exists, not_and, not_or, Nat.not_le] at hnone
    obtain ⟨net, hnet, -⟩ := exists_ofEdges hn hnone
    rw [hnet] at h
    cases h
  · rintro ⟨e, he, hout⟩
    cases h : ofEdges n es with
    | ok net =>
      -- The edge would have been merged into one between nodes.
      obtain ⟨m, hm, hs, ht⟩ := (ends_mergeParallel es _ _).2 ⟨e, he, rfl, rfl⟩
      have hends := (ofEdges_canonical h).endsBelow m (by rwa [edges_ofEdges h])
      rw [size_ofEdges h, hs, ht] at hends
      unfold Edge.raise at hends
      split at hends
      · omega
      · dsimp only at hends
        omega
    | error fault =>
      rw [ofEdges, if_pos hn] at h
      rw [fault_of_addEdges h]

/-- The network of `n` single vertices that says what the list does. -/
structure Represents (net : Network W) (n : Nat) (es : List (Edge W)) : Prop extends
    net.Regular where
  /-- The nodes are as many as asked for. -/
  size_eq : net.size = n
  /-- Each stands for one vertex. -/
  population_eq : ∀ v < n, net.population v = .ok 1
  /-- The edges are the pairs of ends in the list, each with zero plus the weights given for it, in
  their order in the list. -/
  mem_edges : ∀ u v w, ⟨u, v, w⟩ ∈ net.edges ↔ u ≤ v ∧ (∃ e ∈ es, e.Joins u v) ∧
    w = Weight.sum ((es.filter (·.Joins u v)).map (·.weight))

theorem represents_of_ofEdges (h : ofEdges n es = .ok net) : net.Represents n es where
  toRegular := (ofEdges_canonical h).regular
  size_eq := size_ofEdges h
  population_eq v hv := by
    have hv' : v < net.size := (size_ofEdges h).symm ▸ hv
    rw [population_eq_ok hv', populationAt_ofEdges h hv']
  mem_edges u v w := by
    rw [edges_ofEdges h]
    exact mem_mergeParallel_iff

end Network

/-! ## Rearranged lists -/

/-- The second list has the edges of the first one in any order, each named from either end. -/
def Rearranges (es es' : List (Edge W)) : Prop :=
  ∃ turned, List.Forall₂ (fun e e' => e' = e ∨ e' = e.turn) es turned ∧ turned.Perm es'

theorem Rearranges.perm {es es' : List (Edge W)} (h : Rearranges es es') :
    (es.map Edge.raise).Perm (es'.map Edge.raise) := by
  obtain ⟨turned, hturned, hperm⟩ := h
  have hraise : es.map Edge.raise = turned.map Edge.raise := by
    clear hperm
    induction hturned with
    | nil => rfl
    | cons hturn _ ih =>
      rcases hturn with rfl | rfl
      · rw [List.map_cons, List.map_cons, ih]
      · rw [List.map_cons, List.map_cons, ih, Edge.raise_turn]
  exact hraise ▸ hperm.map _

namespace Network

/-- A list of edges makes a network unless one of them ends where there is no node. In any
arithmetic the network has the form of all networks, as have the condensed ones, and represents the
list. In exact arithmetic it is the same for all rearrangements of the list, and its own edges make
it again. -/
theorem canonical_form {K : Type} [Weight W] [Field K] [LinearOrder K] {n : Nat}
    (hn : n < idBound) :
    (∀ es : List (Edge W),
      (ofEdges n es = .error .outOfRange ↔ ∃ e ∈ es, n ≤ e.source ∨ n ≤ e.target) ∧
      ((∀ e ∈ es, e.source < n ∧ e.target < n) →
        ∃ net, ofEdges n es = .ok net ∧ net.Represents n es)) ∧
    (∀ (net : Network W) (p : Partition),
      (∀ top, net.condense p = .ok top → top.Regular) ∧
      (net.Built → p.Spans net.size → p.count < idBound → ∃ top, net.condense p = .ok top)) ∧
    (∀ es es' : List (Edge K), Rearranges es es' → ofEdges n es = ofEdges n es') ∧
    ∀ (es : List (Edge K)) (net : Network K), ofEdges n es = .ok net →
      ofEdges n net.edges = .ok net := by
  refine ⟨fun es => ⟨ofEdges_eq_error_iff hn, fun hes => ?_⟩, fun net p => ⟨fun top htop => ?_,
    fun hnet hp hcount => ?_⟩, fun es es' h => ?_, fun es net hnet => ?_⟩
  · obtain ⟨net, hnet, -⟩ := exists_ofEdges hn hes
    exact ⟨net, hnet, represents_of_ofEdges hnet⟩
  · exact (condense_canonical htop).regular
  · exact exists_condense hnet.canonical hp hcount
  · exact ofEdges_congr (.of_perm h.perm) n
  · have hagain := ofEdges_edges hnet
    rwa [size_ofEdges hnet] at hagain

/-- The chain, with its first edge in two parts, from either end, and an edge that leaves it. -/
theorem canonical_form_chain :
    3 < idBound ∧ ofEdges 3 [⟨1, 0, 1 / 3⟩, ⟨2, 2, 2⟩, ⟨0, 1, 2 / 3⟩, ⟨1, 2, 1⟩] = .ok chain ∧
    chain.Represents 3 [⟨1, 0, 1 / 3⟩, ⟨2, 2, 2⟩, ⟨0, 1, 2 / 3⟩, ⟨1, 2, 1⟩] ∧
    ofEdges 3 [⟨2, 1, 1⟩, ⟨0, 1, 1 / 3⟩, ⟨0, 1, 2 / 3⟩, ⟨2, 2, 2⟩] = .ok chain ∧
    ofEdges 3 chain.edges = .ok chain ∧
    (∃ top, chain.condense ⟨#[0, 2, 0], 4⟩ = .ok top ∧ top.Regular) ∧
    ofEdges 3 [(⟨1, 2, 1⟩ : Edge ℚ), ⟨0, 3, 1⟩] = .error .outOfRange := by
  have hn : 3 < idBound := by decide
  obtain ⟨hlist, hcondense, hsame, hagain⟩ := canonical_form (W := ℚ) (K := ℚ) hn
  have hchain : ofEdges 3 [⟨1, 0, 1 / 3⟩, ⟨2, 2, 2⟩, ⟨0, 1, 2 / 3⟩, ⟨1, 2, 1⟩] = .ok chain := by
    rw [Weight.ofField_rat]
    cbv
  have hrearranges : Rearranges [(⟨1, 0, 1 / 3⟩ : Edge ℚ), ⟨2, 2, 2⟩, ⟨0, 1, 2 / 3⟩, ⟨1, 2, 1⟩]
      [⟨2, 1, 1⟩, ⟨0, 1, 1 / 3⟩, ⟨0, 1, 2 / 3⟩, ⟨2, 2, 2⟩] :=
    ⟨[⟨0, 1, 1 / 3⟩, ⟨2, 2, 2⟩, ⟨0, 1, 2 / 3⟩, ⟨2, 1, 1⟩],
      .cons (.inr rfl) (.cons (.inl rfl) (.cons (.inl rfl) (.cons (.inr rfl) .nil))),
      by decide +kernel⟩
  obtain ⟨net, hnet, hrepresents⟩ :=
    (hlist [⟨1, 0, 1 / 3⟩, ⟨2, 2, 2⟩, ⟨0, 1, 2 / 3⟩, ⟨1, 2, 1⟩]).2 (by decide)
  obtain rfl : net = chain := Except.ok.inj (hnet.symm.trans hchain)
  have hspans : (⟨#[0, 2, 0], 4⟩ : Partition).Spans chain.size := ⟨by decide, by decide⟩
  obtain ⟨top, htop⟩ := (hcondense chain _).2 built_chain hspans (by decide)
  exact ⟨hn, hchain, hrepresents, hsame _ _ hrearranges ▸ hchain, hagain _ _ hchain,
    ⟨top, htop, (hcondense _ _).1 top htop⟩, (hlist _).1.2 ⟨⟨0, 3, 1⟩, by simp, by decide⟩⟩

end Network

end Communities
