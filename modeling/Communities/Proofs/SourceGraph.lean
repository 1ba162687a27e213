import Communities.Proofs.Exact
import Communities.Proofs.Network.Condense
import Communities.SourceGraph

/-!
# Graphs that can be built

A source graph is weighed, its weights are checked, its ids are cut to 32 bits, and its edges are
merged. Where its ids are those of its vertices and these are not too many, nothing is cut and
nothing but a weight can be rejected.

* `checkEdges_eq_ok_iff`: what the check of the weights accepts; in exact arithmetic
  `checkEdges_of_nonneg`.
* `SourceGraph.toNetwork_eq_ok`: a graph gives the network of its weighed edges, unless the check
  rejects one; `SourceGraph.toNetwork_eq_ok_iff`: when a network comes of any graph, and which.
* `SourceGraph.Sound`: nothing is wrong with a graph.
-/

namespace Communities

theorem checkEdges_eq_ok_iff {W : Type} [Weight W] {es : List (Edge W)} :
    checkEdges es = .ok () ↔ ∀ e ∈ es, Weight.Valid e.weight := by
  rw [checkEdges]
  cases hfound : es.find? fun e => ¬Weight.Valid e.weight with
  | none => simpa using hfound
  | some e =>
    have hinvalid := List.find?_some hfound
    have hmem := List.mem_of_find?_eq_some hfound
    simp only [reduceCtorEq, false_iff]
    exact fun h => by simp [h e hmem] at hinvalid

theorem checkEdges_of_nonneg {K : Type} [Field K] [LinearOrder K] {es : List (Edge K)}
    (h : ∀ e ∈ es, 0 ≤ e.weight) : checkEdges es = .ok () :=
  checkEdges_eq_ok_iff.2 fun e he => (Weight.valid_iff _).2 (h e he)

namespace SourceGraph

variable {V W : Type} [Weight W]

/-- The edges of a graph in the order of a visit, weighed. -/
def weighed (g : SourceGraph V) (weight : Option (V → W)) : List (Edge W) :=
  g.edges.map (weigh weight)

omit [Weight W] in
/-- Ends that fit 32 bits are not cut. -/
theorem map_cutEnds {es : List (Edge W)}
    (h : ∀ e ∈ es, e.source < idBound ∧ e.target < idBound) : es.map cutEnds = es := by
  conv_rhs => rw [← List.map_id es]
  refine List.map_congr_left fun e he => ?_
  obtain ⟨hs, ht⟩ := h e he
  rw [cutEnds, Nat.mod_eq_of_lt hs, Nat.mod_eq_of_lt ht]
  rfl

/-- The network of the weighed edges is what comes of a graph, unless their check names one. -/
theorem toNetwork_eq_ok {g : SourceGraph V} {weight : Option (V → W)} {net : Network W}
    (hcount : g.nodeCount < idBound)
    (hends : ∀ e ∈ g.weighed weight, e.source < g.nodeCount ∧ e.target < g.nodeCount)
    (hnet : Network.ofEdges g.nodeCount (g.weighed weight) = .ok net) :
    g.toNetwork weight = .ok ((checkEdges (g.weighed weight)).map fun _ => net) := by
  have hcut : (g.weighed weight).map cutEnds = g.weighed weight :=
    map_cutEnds fun e he => ⟨Nat.lt_trans (hends e he).1 hcount, Nat.lt_trans (hends e he).2 hcount⟩
  rw [weighed] at hcut hnet ⊢
  rw [toNetwork, if_pos hcount]
  cases hcheck : checkEdges (g.edges.map (weigh weight)) with
  | error e => simp only [hcheck]; rfl
  | ok => simp only [hcheck, hcut, hnet]; rfl

/-- A network comes of a graph if its vertices fit 32-bit ids and its weights are valid. It is the
one of its edges with their ends cut. -/
theorem toNetwork_eq_ok_iff {g : SourceGraph V} {weight : Option (V → W)} {net : Network W} :
    g.toNetwork weight = .ok (.ok net) ↔ g.nodeCount < idBound ∧
      (∀ e ∈ g.weighed weight, Weight.Valid e.weight) ∧
      Network.ofEdges g.nodeCount ((g.weighed weight).map cutEnds) = .ok net := by
  rw [toNetwork, ← checkEdges_eq_ok_iff, weighed]
  by_cases hcount : g.nodeCount < idBound
  · rw [if_pos hcount, and_iff_right hcount]
    cases hcheck : checkEdges (g.edges.map (weigh weight)) with
    | error e => simp [hcheck]
    | ok => simp [hcheck, bind_eq_ok_iff]
  · simp [hcount]

/-- The edges of a network are those that it presents. -/
theorem weighed_toSource (net : Network W) : net.toSource.weighed (some id) = net.edges := by
  rw [weighed, Network.toSource, List.map_map]
  exact List.map_id _

/-- Nothing is wrong with the graph: it has no direction, its vertices fit 32-bit ids, its edges end
at vertices, and none of them weighs less than zero. -/
structure Sound {K : Type} [Field K] [LinearOrder K] (g : SourceGraph V) (weight : Option (V → K)) :
    Prop where
  /-- The edges have no direction. -/
  undirected : g.directed = false
  /-- The vertices fit 32-bit ids. -/
  nodeCount_lt : g.nodeCount < idBound
  /-- The edges end at vertices. -/
  endsBelow : ∀ e ∈ g.weighed weight, e.source < g.nodeCount ∧ e.target < g.nodeCount
  /-- No edge weighs less than zero. -/
  nonneg : ∀ e ∈ g.weighed weight, 0 ≤ e.weight

end SourceGraph

end Communities
