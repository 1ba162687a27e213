import Communities.Network.Build
import Communities.Proofs.Loop
import Mathlib.Data.List.Induction
import Mathlib.Data.List.Sort

/-!
# Canonical networks

A network is determined by the populations of its nodes and by its list of edges, and that list is
in strictly ascending order. Whoever builds a network does it in this way, in any arithmetic.

* `Network.linked` is the network of given populations and edges. `Network.addEdges_unlinked`: this
  is what adding the edges one by one builds, and `Network.edges_linked`: it has these edges.
* `Merges` is what merging keeps true, edge by edge. `ascending_mergeParallel`: merged edges are in
  strictly ascending order; `ends_mergeParallel` and `weight_mergeParallel`: their ends, and their
  weights to the last bit.
* `Network.Canonical` is what there is to know about a network; `Network.Built` are the networks
  that the library can build, and `Network.Built.canonical`: they are canonical.
-/

namespace Communities

variable {W : Type}

/-! ## Ascending edges -/

namespace Edge

/-- The strict order of edges: by source, then by target. -/
def Before (a b : Edge W) : Prop :=
  a.source < b.source ∨ a.source = b.source ∧ a.target < b.target

theorem Before.trans {a b c : Edge W} (h : a.Before b) (h' : b.Before c) : a.Before c := by
  unfold Before at *
  omega

theorem Before.not_parallel {a b : Edge W} (h : a.Before b) : ¬a.Parallel b := by
  unfold Before at h
  unfold Parallel
  omega

theorem Parallel.eq {a b : Edge W} (h : a.Parallel b) (hw : a.weight = b.weight) : a = b := by
  obtain ⟨hs, ht⟩ := h
  cases a
  cases b
  simp_all

instance : Std.Irrefl (Before (W := W)) := ⟨fun a h => by unfold Before at h; omega⟩

instance : Std.Antisymm (Before (W := W)) :=
  ⟨fun a b h h' => by unfold Before at h h'; omega⟩

/-- The edge as a link of node `u`, if it ends there. -/
def seenFrom (u : Nat) (e : Edge W) : Option (Link W) :=
  if e.source = u then some ⟨e.target, e.weight⟩
  else if e.target = u then some ⟨e.source, e.weight⟩
  else none

theorem raise_source_le (e : Edge W) : e.raise.source ≤ e.raise.target := by
  unfold raise
  split
  · assumption
  · simp only; omega

theorem atMost_iff (a b : Edge W) :
    a.atMost b = true ↔ a.source < b.source ∨ a.source = b.source ∧ a.target ≤ b.target := by
  simp [atMost]

theorem atMost_trans (a b c : Edge W) (hab : a.atMost b = true) (hbc : b.atMost c = true) :
    a.atMost c = true := by
  rw [atMost_iff] at *
  omega

theorem atMost_total (a b : Edge W) : (a.atMost b || b.atMost a) = true := by
  rw [Bool.or_eq_true, atMost_iff, atMost_iff]
  omega

end Edge

/-- Edges in strictly ascending order, each with its lower end as source. -/
structure Ascending (es : List (Edge W)) : Prop where
  /-- The source is the lower end. -/
  source_le : ∀ e ∈ es, e.source ≤ e.target
  /-- No two edges have the same ends, and they ascend. -/
  pairwise : es.Pairwise Edge.Before

section Merge

variable [Weight W] {es merged : List (Edge W)} {e m : Edge W}

/-- The weights of the edges parallel to `m`, added up in their order. -/
def parallelWeight (es : List (Edge W)) (m : Edge W) : W :=
  Weight.sum ((es.filter (m.Parallel ·)).map (·.weight))

private theorem parallelWeight_concat (h : m.Parallel e) :
    parallelWeight (es ++ [e]) m = parallelWeight es m + e.weight := by
  simp [parallelWeight, h, Weight.sum_concat]

private theorem parallelWeight_concat_of_not (h : ¬m.Parallel e) :
    parallelWeight (es ++ [e]) m = parallelWeight es m := by
  simp [parallelWeight, h]

private theorem parallelWeight_eq_zero (h : ∀ a ∈ es, ¬m.Parallel a) : parallelWeight es m = 0 := by
  have hnone : es.filter (m.Parallel ·) = [] := by simpa [List.filter_eq_nil_iff] using h
  rw [parallelWeight, hnone]
  rfl

/-- What has come of the edges `es`, which ascend, by merging them: the latest edge first. -/
structure Merges (es merged : List (Edge W)) : Prop where
  /-- No pair of ends is lost or won. -/
  ends : ∀ u v, (∃ m ∈ merged, m.source = u ∧ m.target = v) ↔
    ∃ e ∈ es, e.source = u ∧ e.target = v
  /-- Each pair is there once. -/
  pairwise : merged.Pairwise fun a b => b.Before a
  /-- It has the weight of all its edges. -/
  weight_eq : ∀ m ∈ merged, m.weight = parallelWeight es m

namespace Merges

/-- An edge that lies behind all others has its own entry. -/
private theorem fresh (h : Merges es merged) (hbefore : ∀ m ∈ merged, m.Before e) :
    Merges (es ++ [e]) ({ e with weight := 0 + e.weight } :: merged) where
  ends u v := by
    have := h.ends u v
    simp only [List.mem_cons, this, List.mem_append, or_and_right, exists_or, List.not_mem_nil,
      or_false, exists_eq_left]
    exact or_comm
  pairwise := List.pairwise_cons.2 ⟨hbefore, h.pairwise⟩
  weight_eq := by
    have hnone : ∀ a ∈ es, ¬e.Parallel a := by
      rintro a ha ⟨hs, ht⟩
      obtain ⟨m, hm, hms, hmt⟩ := (h.ends a.source a.target).2 ⟨a, ha, rfl, rfl⟩
      exact (hbefore m hm).not_parallel ⟨hms.trans hs.symm, hmt.trans ht.symm⟩
    refine List.forall_mem_cons.2 ⟨?_, fun m hm => ?_⟩
    · show 0 + e.weight = parallelWeight (es ++ [e]) e
      rw [parallelWeight_concat ⟨rfl, rfl⟩, parallelWeight_eq_zero hnone]
    · rw [parallelWeight_concat_of_not (hbefore m hm).not_parallel]
      exact h.weight_eq m hm

/-- An edge that is parallel to the latest entry adds to it. -/
private theorem join {last : Edge W} {rest : List (Edge W)} (h : Merges es (last :: rest))
    (hlast : last.Parallel e) :
    Merges (es ++ [e]) ({ last with weight := last.weight + e.weight } :: rest) where
  ends u v := by
    have := h.ends u v
    simp only [List.mem_cons, exists_eq_or_imp] at this
    simp only [List.mem_cons, this, List.mem_append, or_and_right, exists_or, List.not_mem_nil,
      or_false, exists_eq_left, ← hlast.1, ← hlast.2]
    exact ⟨.inl, fun hends => hends.elim id fun hlast => this.1 (.inl hlast)⟩
  pairwise := List.pairwise_cons.2 (List.pairwise_cons.1 h.pairwise)
  weight_eq := by
    refine List.forall_mem_cons.2 ⟨?_, fun m hm => ?_⟩
    · show last.weight + e.weight = parallelWeight (es ++ [e]) last
      rw [parallelWeight_concat hlast, ← h.weight_eq last (by simp)]
    · have hbefore : m.Before last := (List.pairwise_cons.1 h.pairwise).1 m hm
      have hne : ¬m.Parallel e := fun hm =>
        hbefore.not_parallel ⟨hm.1.trans hlast.1.symm, hm.2.trans hlast.2.symm⟩
      rw [parallelWeight_concat_of_not hne]
      exact h.weight_eq m (by simp [hm])

private theorem absorb (h : Merges es merged) (hle : ∀ a ∈ es, a.atMost e = true) :
    Merges (es ++ [e]) (Edge.absorb merged e) := by
  cases merged with
  | nil => exact h.fresh (by simp)
  | cons last rest =>
    rw [Edge.absorb]
    split
    · next hlast => exact h.join hlast
    · next hne =>
      have hlast : last.Before e := by
        obtain ⟨a, ha, hs, ht⟩ := (h.ends _ _).1 ⟨last, by simp, rfl, rfl⟩
        have := (Edge.atMost_iff _ _).1 (hle a ha)
        unfold Edge.Parallel at hne
        unfold Edge.Before
        omega
      refine h.fresh (List.forall_mem_cons.2 ⟨hlast, fun m hm => ?_⟩)
      exact ((List.pairwise_cons.1 h.pairwise).1 m hm).trans hlast

end Merges

private theorem merges_foldl_absorb (hes : es.Pairwise fun a b => a.atMost b = true) :
    Merges es (es.foldl Edge.absorb []) := by
  induction es using List.reverseRecOn with
  | nil => exact ⟨by simp, .nil, by simp⟩
  | append_singleton es e ih =>
    obtain ⟨hes, -, hle⟩ := List.pairwise_append.1 hes
    rw [List.foldl_append, List.foldl_cons, List.foldl_nil]
    exact (ih hes).absorb fun a ha => hle a ha e (by simp)

private theorem merges_mergeParallel (es : List (Edge W)) :
    Merges ((es.map Edge.raise).mergeSort Edge.atMost) (mergeParallel es).reverse := by
  rw [mergeParallel, List.reverse_reverse]
  exact merges_foldl_absorb (List.pairwise_mergeSort Edge.atMost_trans Edge.atMost_total _)

/-- Merging keeps the pairs of ends, each with the lower end first. -/
theorem ends_mergeParallel (es : List (Edge W)) (u v : Nat) :
    (∃ a ∈ mergeParallel es, a.source = u ∧ a.target = v) ↔
      ∃ e ∈ es, e.raise.source = u ∧ e.raise.target = v := by
  simpa [List.mem_mergeSort] using (merges_mergeParallel es).ends u v

theorem ascending_mergeParallel (es : List (Edge W)) : Ascending (mergeParallel es) := by
  refine ⟨fun e he => ?_, List.pairwise_reverse.1 (merges_mergeParallel es).pairwise⟩
  obtain ⟨e', -, hs, ht⟩ := (ends_mergeParallel es _ _).1 ⟨e, he, rfl, rfl⟩
  rw [← hs, ← ht]
  exact e'.raise_source_le

/-- Sorting leaves entries in their order among which there is nothing to sort. -/
theorem filter_mergeSort {α : Type} {le : α → α → Bool}
    (trans : ∀ a b c, le a b = true → le b c = true → le a c = true)
    (total : ∀ a b, (le a b || le b a) = true) {p : α → Bool} {xs : List α}
    (h : (xs.filter p).Pairwise fun a b => le a b = true) :
    (xs.mergeSort le).filter p = xs.filter p := by
  have hsub : (xs.filter p).Sublist (xs.mergeSort le) :=
    List.sublist_mergeSort trans total h List.filter_sublist
  have hsub' : (xs.filter p).Sublist ((xs.mergeSort le).filter p) := by
    simpa [List.filter_filter] using hsub.filter p
  exact (hsub'.eq_of_length ((List.mergeSort_perm xs le).filter p).length_eq.symm).symm

/-- The weight of a merged edge is zero plus the weights of its parts in their order in the list. -/
theorem weight_mergeParallel (hm : m ∈ mergeParallel es) :
    m.weight = parallelWeight (es.map Edge.raise) m := by
  have hsame : ((es.map Edge.raise).filter (m.Parallel ·)).Pairwise
      fun a b => a.atMost b = true := by
    refine List.pairwise_of_forall_mem_list fun a ha b hb => ?_
    obtain ⟨hsa, hta⟩ := of_decide_eq_true (List.mem_filter.1 ha).2
    obtain ⟨hsb, htb⟩ := of_decide_eq_true (List.mem_filter.1 hb).2
    rw [Edge.atMost_iff]
    omega
  rw [(merges_mergeParallel es).weight_eq m (List.mem_reverse.2 hm), parallelWeight, parallelWeight,
    filter_mergeSort Edge.atMost_trans Edge.atMost_total hsame]

end Merge

/-! ## The network of a list of edges -/

namespace Network

/-- The links of node `u`, none if there is no such node. -/
def row (net : Network W) (u : Nat) : List (Link W) := (net.nodes[u]?.map (·.links)).getD []

/-- The population of each node. -/
def populations (net : Network W) : Array W := net.nodes.map (·.population)

/-- The network of the given populations and edges. -/
def linked (populations : Array W) (es : List (Edge W)) : Network W :=
  ⟨populations.mapIdx fun u population => ⟨population, es.filterMap (Edge.seenFrom u)⟩, es.length⟩

@[simp] theorem size_linked (populations : Array W) (es : List (Edge W)) :
    (linked populations es).size = populations.size := by
  simp [linked, size]

@[simp] theorem populations_linked (populations : Array W) (es : List (Edge W)) :
    (linked populations es).populations = populations := by
  apply Array.ext <;> simp [linked, Network.populations]

theorem row_linked {populations : Array W} {es : List (Edge W)} {u : Nat}
    (hu : u < populations.size) :
    (linked populations es).row u = es.filterMap (Edge.seenFrom u) := by
  simp [linked, row, hu]

private theorem addEdge_linked {populations : Array W} {es : List (Edge W)} {e : Edge W}
    (hs : e.source < populations.size) (ht : e.target < populations.size) :
    (linked populations es).addEdge e = .ok (linked populations (e :: es)) := by
  have hsize : (linked populations es).nodes.size = populations.size := by simp [linked]
  unfold addEdge
  rw [adjust_of_lt _ (by omega), ok_bind]
  split
  · next h =>
    simp only [pure_eq_ok, linked, Except.ok.injEq, Network.mk.injEq, List.length_cons, and_true]
    refine Array.ext (by simp) fun u hu _ => ?_
    simp only [Array.getElem_modify, Array.getElem_mapIdx, List.filterMap_cons, Edge.seenFrom]
    by_cases hu' : e.source = u <;> simp [hu', ← h, Node.attach]
  · next h =>
    rw [adjust_of_lt _ (by rw [Array.size_modify]; omega), ok_bind]
    simp only [pure_eq_ok, linked, Except.ok.injEq, Network.mk.injEq, List.length_cons, and_true]
    refine Array.ext (by simp) fun u hu _ => ?_
    simp only [Array.getElem_modify, Array.getElem_mapIdx, List.filterMap_cons, Edge.seenFrom]
    by_cases hu' : e.source = u
    · have : e.target ≠ u := fun h' => h (hu'.trans h'.symm)
      simp [hu', this, Node.attach]
    · by_cases hu'' : e.target = u <;> simp [hu', hu'', Node.attach]

theorem addEdges_unlinked {populations : Array W} {es : List (Edge W)}
    (h : ∀ e ∈ es, e.source < populations.size ∧ e.target < populations.size) :
    (unlinked populations).addEdges es = .ok (linked populations es) := by
  induction es with
  | nil =>
    have : unlinked populations = linked populations [] := by
      simp only [unlinked, linked, List.filterMap_nil, List.length_nil, Network.mk.injEq, and_true]
      apply Array.ext <;> simp
    rw [this]; rfl
  | cons e es ih =>
    have hes := ih fun e' he' => h e' (by simp [he'])
    unfold addEdges at hes ⊢
    rw [List.foldrM_cons, hes, ok_bind]
    exact addEdge_linked (h e (by simp)).1 (h e (by simp)).2

private theorem size_addEdge {net net' : Network W} {e : Edge W} (h : net.addEdge e = .ok net') :
    net'.size = net.size ∧ e.source < net.size ∧ e.target < net.size := by
  unfold addEdge at h
  obtain ⟨nodes, hnodes, h⟩ := bind_eq_ok_iff.1 h
  obtain ⟨hs, rfl⟩ := adjust_eq_ok_iff.1 hnodes
  split at h
  · next heq => cases h; exact ⟨by simp [size], hs, heq ▸ hs⟩
  · obtain ⟨nodes', hnodes', h⟩ := bind_eq_ok_iff.1 h
    obtain ⟨ht, rfl⟩ := adjust_eq_ok_iff.1 hnodes'
    cases h
    rw [Array.size_modify] at ht
    exact ⟨by simp [size], hs, ht⟩

/-- Edges can only be added between nodes. -/
theorem lt_of_addEdges {net net' : Network W} {es : List (Edge W)} (h : net.addEdges es = .ok net') :
    net'.size = net.size ∧ ∀ e ∈ es, e.source < net.size ∧ e.target < net.size := by
  unfold addEdges at h
  induction es generalizing net' with
  | nil => cases h; exact ⟨rfl, by simp⟩
  | cons e es ih =>
    rw [List.foldrM_cons] at h
    obtain ⟨net'', h', he⟩ := bind_eq_ok_iff.1 h
    obtain ⟨hsize, hes⟩ := ih h'
    obtain ⟨hsize', hs, ht⟩ := size_addEdge he
    refine ⟨hsize'.trans hsize, fun e' he' => ?_⟩
    rcases List.mem_cons.1 he' with rfl | he'
    · omega
    · exact hes e' he'

/-- The edges of a node that lead upwards are those it is the lower end of. -/
private theorem upward_linked {es : List (Edge W)} (hes : ∀ e ∈ es, e.source ≤ e.target) (u : Nat) :
    ((es.filterMap (Edge.seenFrom u)).filter (u ≤ ·.target)).map
        (fun link => (⟨u, link.target, link.weight⟩ : Edge W)) = es.filter (·.source = u) := by
  induction es with
  | nil => rfl
  | cons e es ih =>
    have hle := hes e (by simp)
    have ih := ih fun e' he' => hes e' (by simp [he'])
    by_cases hs : e.source = u
    · subst hs
      simpa [Edge.seenFrom, List.filter_cons, hle] using ih
    · by_cases ht : e.target = u
      · have : ¬u ≤ e.source := by omega
        simpa [Edge.seenFrom, hs, ht, List.filter_cons, this] using ih
      · simpa [Edge.seenFrom, hs, ht, List.filter_cons] using ih

theorem edges_linked {populations : Array W} {es : List (Edge W)} (hes : Ascending es)
    (hlt : ∀ e ∈ es, e.target < populations.size) : (linked populations es).edges = es := by
  have hrows : (linked populations es).edges =
      (List.range populations.size).flatMap fun u => es.filter (·.source = u) := by
    simp only [edges, linked, List.flatMap, ← upward_linked hes.source_le]
    congr 1
    apply List.ext_getElem
    · simp
    · intro u _ _; simp [Node.upward]
  rw [hrows]
  refine List.Pairwise.eq_of_mem_iff (r := Edge.Before) ?_ hes.pairwise fun e => ?_
  · rw [List.pairwise_flatMap]
    refine ⟨fun u _ => hes.pairwise.sublist List.filter_sublist, ?_⟩
    refine (List.pairwise_lt_range).imp fun {u v} huv a ha b hb => ?_
    rw [List.mem_filter, decide_eq_true_eq] at ha hb
    exact .inl (by omega)
  · simp only [List.mem_flatMap, List.mem_range, List.mem_filter, decide_eq_true_eq]
    constructor
    · rintro ⟨u, -, he, -⟩; exact he
    · intro he
      have := hes.source_le e he
      have := hlt e he
      exact ⟨e.source, by omega, he, rfl⟩

end Network

end Communities
