import Communities.Proofs.Network.Form
import Communities.Proofs.SourceGraph

/-!
# Ids that are no nodes

Ids are cut to 32 bits before they are looked at. An id that fits 32 bits and is none of a network
is always noticed: no network comes of a graph with such an end, and it has no population and no
links. One that does not fit is taken for the node that its lower 32 bits name, if there is one. An
edge is then built between other nodes than those it came with. A lookup of links notices it only
where that node has a link.

* `Network.exists_ofEdges_iff`: edges make a network if they end at nodes.
* `SourceGraph.exists_toNetwork_iff`: so do the edges of a graph, with their ends cut.
* `Network.links_eq_ok_iff`: which ids that are no nodes have links, and which they have.
* `stray_ids`: all of it; `stray_ids_taken`: an id of each kind that is taken for a node.
-/

namespace Communities

variable {V W : Type} [Weight W]

namespace Network

theorem exists_ofEdges_iff {n : Nat} {es : List (Edge W)} : (∃ net, ofEdges n es = .ok net) ↔
    n < idBound ∧ ∀ e ∈ es, e.source < n ∧ e.target < n := by
  constructor
  · rintro ⟨net, hnet⟩
    have hn : n < idBound := size_ofEdges hnet ▸ (ofEdges_canonical hnet).size_lt
    refine ⟨hn, fun e he => ?_⟩
    by_contra hout
    rw [not_and_or, Nat.not_lt, Nat.not_lt] at hout
    rw [(ofEdges_eq_error_iff hn).2 ⟨e, he, hout⟩] at hnet
    cases hnet
  · rintro ⟨hn, hes⟩
    obtain ⟨net, hnet, -⟩ := exists_ofEdges hn hes
    exact ⟨net, hnet⟩

variable {net : Network W} {node : Nat}

omit [Weight W] in
theorem population_eq_error (h : net.size ≤ node) : net.population node = .error .outOfRange := by
  have hfetch : fetch net.nodes node = .error .outOfRange := fetch_eq_error_iff.2 ⟨h, rfl⟩
  rw [population, hfetch]
  rfl

omit [Weight W] in
/-- An id that is no node has links, none, if its lower 32 bits name a node without any. -/
theorem links_eq_ok_iff (h : net.size ≤ node) {links : List (Link W)} :
    net.links node = .ok links ↔
      node % idBound < net.size ∧ net.row (node % idBound) = [] ∧ links = [] := by
  rw [Network.links]
  by_cases hlt : node % idBound < net.size
  · have hlt' : node % idBound < net.nodes.size := hlt
    -- Below the bound the id would be its own remainder, and so a node.
    have hlong : ¬node < idBound := fun hshort => by
      rw [Nat.mod_eq_of_lt hshort] at hlt
      omega
    have hrow : net.row (node % idBound) = (net.nodes[node % idBound]).links := by
      simp [row, hlt']
    rw [fetch_of_lt hlt', ok_bind, hrow, and_iff_right hlt]
    simp only [hlong, false_or, List.isEmpty_iff]
    split
    · next hnone => simp [hnone, eq_comm]
    · next hsome => simp [hsome]
  · have hfetch : fetch net.nodes (node % idBound) = .error .outOfRange :=
      fetch_eq_error_iff.2 ⟨Nat.not_lt.1 hlt, rfl⟩
    simp [hfetch, hlt]

end Network

namespace SourceGraph

variable {g : SourceGraph V} {weight : Option (V → W)}

theorem exists_toNetwork_iff : (∃ net, g.toNetwork weight = .ok (.ok net)) ↔
    g.nodeCount < idBound ∧ (∀ e ∈ g.weighed weight, Weight.Valid e.weight) ∧
      ∀ e ∈ g.weighed weight,
        e.source % idBound < g.nodeCount ∧ e.target % idBound < g.nodeCount := by
  simp only [toNetwork_eq_ok_iff, exists_and_left, Network.exists_ofEdges_iff, List.forall_mem_map]
  constructor
  · rintro ⟨hcount, hvalid, -, hends⟩
    exact ⟨hcount, hvalid, hends⟩
  · rintro ⟨hcount, hvalid, hends⟩
    exact ⟨hcount, hvalid, hcount, hends⟩

end SourceGraph

/-- A network comes of a graph whose vertices fit 32-bit ids and whose weights are valid if the
lower 32 bits of all ends name vertices, and is the one of the ends that these name. So an end that
fits 32 bits and is no vertex is never let in. An id that is no node has no population. It has
links, namely none, only if its lower 32 bits name a node without links, so not if it fits 32
bits. -/
theorem stray_ids (V W : Type) [Weight W] :
    (∀ (g : SourceGraph V) (weight : Option (V → W)),
      ((∃ net, g.toNetwork weight = .ok (.ok net)) ↔
        g.nodeCount < idBound ∧ (∀ e ∈ g.weighed weight, Weight.Valid e.weight) ∧
          ∀ e ∈ g.weighed weight,
            e.source % idBound < g.nodeCount ∧ e.target % idBound < g.nodeCount) ∧
      (∀ net, g.toNetwork weight = .ok (.ok net) →
        Network.ofEdges g.nodeCount ((g.weighed weight).map SourceGraph.cutEnds) = .ok net) ∧
      ∀ e ∈ g.weighed weight, ∀ id, id = e.source ∨ id = e.target →
        g.nodeCount ≤ id → id < idBound → ∀ net, g.toNetwork weight ≠ .ok (.ok net)) ∧
    ∀ (net : Network W) (id : Nat), net.size ≤ id →
      net.population id = .error .outOfRange ∧
      (∀ links, net.links id = .ok links ↔
        id % idBound < net.size ∧ net.row (id % idBound) = [] ∧ links = []) ∧
      (id < idBound → ∀ links, net.links id ≠ .ok links) := by
  refine ⟨fun g weight => ⟨g.exists_toNetwork_iff, fun net hnet => ?_, ?_⟩,
    fun net id hid => ⟨net.population_eq_error hid, fun links => net.links_eq_ok_iff hid, ?_⟩⟩
  · exact (SourceGraph.toNetwork_eq_ok_iff.1 hnet).2.2
  · intro e he id hend hid hshort net hnet
    obtain ⟨-, -, hends⟩ := SourceGraph.exists_toNetwork_iff.1 ⟨net, hnet⟩
    obtain ⟨hs, ht⟩ := hends e he
    have hmod : id % idBound = id := Nat.mod_eq_of_lt hshort
    rcases hend with rfl | rfl <;> omega
  · intro hshort links hlinks
    have hlt := ((net.links_eq_ok_iff hid).1 hlinks).1
    rw [Nat.mod_eq_of_lt hshort] at hlt
    omega

/-- An id that fits 32 bits and is no node, as an end and in a lookup. -/
theorem stray_ids_short :
    (⟨1, 0, 1⟩ : Edge ℚ) ∈
      (⟨false, 1, [⟨1, 0, ()⟩]⟩ : SourceGraph Unit).weighed (none : Option (Unit → ℚ)) ∧
    (∀ net : Network ℚ,
      (⟨false, 1, [⟨1, 0, ()⟩]⟩ : SourceGraph Unit).toNetwork none ≠ .ok (.ok net)) ∧
    Network.pair.size ≤ 2 ∧ Network.pair.population 2 = .error .outOfRange ∧
    ∀ links, Network.pair.links 2 ≠ .ok links := by
  obtain ⟨hgraph, hnetwork⟩ := stray_ids Unit ℚ
  have hend : (⟨1, 0, 1⟩ : Edge ℚ) ∈
      (⟨false, 1, [⟨1, 0, ()⟩]⟩ : SourceGraph Unit).weighed (none : Option (Unit → ℚ)) := by decide
  obtain ⟨hpopulation, -, hlinks⟩ := hnetwork Network.pair 2 (by decide)
  exact ⟨hend, (hgraph _ none).2.2 _ hend 1 (.inl rfl) (by decide) (by decide), by decide,
    hpopulation, hlinks (by decide)⟩

/-- An end that does not fit 32 bits is taken for a vertex, and so is an id that is asked for its
links: not every id that is no node is noticed. -/
theorem stray_ids_taken :
    (¬∀ (g : SourceGraph Unit) (weight : Option (Unit → ℚ)),
      (∃ e ∈ g.edges, g.nodeCount ≤ e.source ∨ g.nodeCount ≤ e.target) →
        ∀ net, g.toNetwork weight ≠ .ok (.ok net)) ∧
    ¬∀ (net : Network ℚ) (id : Nat), net.size ≤ id → ∀ links, net.links id ≠ .ok links := by
  have hnetwork : SourceGraph.toNetwork ⟨false, 1, [⟨4294967296, 0, ()⟩]⟩ none =
      .ok (.ok (⟨#[⟨1, [⟨0, 1⟩]⟩], 1⟩ : Network ℚ)) := by decide +kernel
  have hlinks : Network.links (⟨#[⟨1, []⟩], 0⟩ : Network ℚ) 4294967296 = .ok [] := by
    decide +kernel
  exact ⟨fun h => h _ none ⟨_, List.mem_singleton_self _, .inl (by decide)⟩ _ hnetwork,
    fun h => h _ 4294967296 (by decide) _ hlinks⟩

end Communities
