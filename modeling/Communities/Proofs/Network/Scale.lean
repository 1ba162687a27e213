import Communities.Network.Build
import Communities.Network.Degrees
import Communities.Proofs.Exact
import Communities.Proofs.Loop
import Communities.SourceGraph

/-!
# Networks in another unit

The weights of a network can be given in another unit, a factor on all of them. In exact arithmetic
everything that is built from a network is built from the scaled one in the new unit: degrees, sums
of parallel edges, and the network of the classes of a partition. The populations have another unit,
and stay.

* `Network.scale`, `Edge.scale`, `Degrees.scale`: the same in the new unit.
* `Network.degrees_scale`, `Network.ofEdges_scale` and `Network.condense_scale`: what is built.
* `checkEdges_scale`: a positive factor changes no weight's being valid.
-/

namespace Communities

variable {K : Type} [Field K]

/-- The link in another unit. -/
def Link.scale (k : K) (link : Link K) : Link K := { link with weight := k * link.weight }

/-- The edge in another unit. -/
def Edge.scale (k : K) (e : Edge K) : Edge K := { e with weight := k * e.weight }

/-- The node in another unit of weight. -/
def Node.scale (k : K) (self : Node K) : Node K :=
  { self with links := self.links.map (.scale k) }

/-- The network in another unit of weight. -/
def Network.scale (k : K) (net : Network K) : Network K :=
  { net with nodes := net.nodes.map (.scale k) }

/-- The degrees in another unit. -/
def Degrees.scale (k : K) (d : Degrees K) : Degrees K := ⟨d.byNode.map (k * ·), k * d.total⟩

/-- The rejection with a reported weight in another unit. -/
def Rejection.scale (k : K) : Rejection K → Rejection K
  | edgeWeight source target weight => edgeWeight source target (k * weight)
  | directed => directed
  | seedSize expected found => seedSize expected found
  | tooManyNodes nodes => tooManyNodes nodes
  | setting s => setting s
  | notConverged level sweeps => notConverged level sweeps

/-! ## Tables -/

theorem adjust_add_scale (k : K) (table : Array K) (i : Nat) (w : K) :
    adjust (table.map (k * ·)) i (· + k * w) =
      (adjust table i (· + w)).map (Array.map (k * ·)) :=
  adjust_map (fun x => (mul_add k x w).symm) table i

theorem adjust_zero_scale (k : K) (table : Array K) (i : Nat) :
    adjust (table.map (k * ·)) i (fun _ => 0) =
      (adjust table i fun _ => 0).map (Array.map (k * ·)) :=
  adjust_map (fun _ => (mul_zero k).symm) table i

theorem getD_scale (k : K) (table : Array K) (i : Nat) :
    (table.map (k * ·)).getD i 0 = k * table.getD i 0 := by
  rw [Array.getD_eq_getD_getElem?, Array.getD_eq_getD_getElem?, Array.getElem?_map]
  cases table[i]? with
  | none => exact (mul_zero k).symm
  | some w => rfl

/-! ## Edges -/

namespace Network

variable (k : K) (net : Network K)

@[simp] theorem size_scale : (net.scale k).size = net.size := Array.size_map

theorem links_scale (v : Nat) :
    (net.scale k).links v = (net.links v).map (List.map (.scale k)) := by
  rw [links, links, scale, fetch_map, bind_map_eq, map_bind_eq]
  congr 1
  funext self
  rw [Node.scale, List.isEmpty_map]
  split <;> rfl

theorem zipIdx_scale : (net.scale k).nodes.toList.zipIdx =
    net.nodes.toList.zipIdx.map (Prod.map (Node.scale k) id) := by
  rw [scale, Array.toList_map, List.zipIdx_map]

theorem upward_scale (self : Node K) (id : Nat) :
    (self.scale k).upward id = (self.upward id).map (.scale k) :=
  List.filter_map

theorem edges_scale : (net.scale k).edges = net.edges.map (.scale k) := by
  rw [edges, edges, zipIdx_scale, List.flatMap_map, List.map_flatMap]
  refine List.flatMap_congr fun entry _ => ?_
  obtain ⟨self, node⟩ := entry
  dsimp only [Prod.map, id]
  rw [upward_scale, List.map_map, List.map_map]
  rfl

end Network

variable [LinearOrder K] (k : K)

/-! ## Degrees -/

theorem Weight.sum_map_mul (ws : List K) : Weight.sum (ws.map (k * ·)) = k * Weight.sum ws := by
  rw [sum_eq, sum_eq, List.sum_map_mul_left, List.map_id']

theorem Node.degree_scale (self : Node K) (id : Nat) :
    (self.scale k).degree id = k * self.degree id := by
  rw [degree, degree, ← Weight.sum_map_mul, scale, List.map_map, List.map_map]
  refine congrArg Weight.sum (List.map_congr_left fun link _ => ?_)
  rw [Function.comp_apply, Function.comp_apply, Link.scale, mul_ite, mul_left_comm]

theorem Network.degrees_scale (net : Network K) : (net.scale k).degrees = net.degrees.scale k := by
  have hbyNode : (net.scale k).nodes.mapIdx (fun id self => self.degree id) =
      (net.nodes.mapIdx fun id self => self.degree id).map (k * ·) := by
    refine Array.ext (by simp [scale]) fun v _ _ => ?_
    simp only [scale, Array.getElem_mapIdx, Array.getElem_map, Node.degree_scale]
  simp only [degrees, Degrees.scale, hbyNode, Array.toList_map, Weight.sum_map_mul]

/-! ## Building -/

omit [LinearOrder K] in
theorem Edge.raise_scale (e : Edge K) : (e.scale k).raise = e.raise.scale k := by
  by_cases h : e.source ≤ e.target <;> simp [raise, scale, h]

theorem Edge.absorb_scale (merged : List (Edge K)) (e : Edge K) :
    absorb (merged.map (.scale k)) (e.scale k) = (absorb merged e).map (.scale k) := by
  have hnew : { e.scale k with weight := 0 + (e.scale k).weight } =
      Edge.scale k { e with weight := 0 + e.weight } := by
    simp [scale]
  cases merged with
  | nil => exact congrArg (fun e => [e]) hnew
  | cons last rest =>
    rw [List.map_cons, absorb, absorb]
    split_ifs with h h' h'
    · simp [scale, mul_add]
    · exact absurd h h'
    · exact absurd h' h
    · rw [List.map_cons, List.map_cons, hnew]

theorem mergeParallel_scale (es : List (Edge K)) :
    mergeParallel (es.map (.scale k)) = (mergeParallel es).map (.scale k) := by
  have hraise : (es.map (.scale k)).map Edge.raise = (es.map Edge.raise).map (.scale k) := by
    rw [List.map_map, List.map_map]
    exact List.map_congr_left fun e _ => e.raise_scale k
  have hsort : ((es.map Edge.raise).map (.scale k)).mergeSort Edge.atMost =
      ((es.map Edge.raise).mergeSort Edge.atMost).map (.scale k) :=
    (List.map_mergeSort (s := Edge.atMost) (f := Edge.scale k) fun _ _ _ _ => rfl).symm
  rw [mergeParallel, mergeParallel, hraise, hsort, List.map_reverse, List.foldl_map]
  exact congrArg List.reverse <| @List.foldl_hom _ _ _ (List.map (Edge.scale k)) Edge.absorb
    (fun merged e => Edge.absorb merged (e.scale k)) _ [] (Edge.absorb_scale k)

namespace Network

omit [LinearOrder K] in
theorem unlinked_scale (populations : Array K) :
    (unlinked populations).scale k = unlinked populations := by
  simp [unlinked, scale, Node.scale, Function.comp_def]

omit [LinearOrder K] in
theorem addEdge_scale (net : Network K) (e : Edge K) :
    (net.scale k).addEdge (e.scale k) = (net.addEdge e).map (.scale k) := by
  have hattach (nodes : Array (Node K)) (v target : Nat) :
      adjust (nodes.map (Node.scale k)) v (Node.attach · target (k * e.weight)) =
        (adjust nodes v (Node.attach · target e.weight)).map (Array.map (Node.scale k)) := by
    refine adjust_map (fun self => ?_) nodes v
    rfl
  rw [Edge.scale, addEdge, addEdge]
  refine bind_hom (hattach net.nodes _ _) fun nodes => ?_
  split_ifs
  · rfl
  · exact bind_hom (hattach nodes _ _) fun nodes => rfl

omit [LinearOrder K] in
theorem addEdges_scale (net : Network K) (es : List (Edge K)) :
    (net.scale k).addEdges (es.map (.scale k)) = (net.addEdges es).map (.scale k) := by
  rw [addEdges, addEdges, List.foldrM_map]
  exact foldrM_hom (scale k) (fun e net => net.addEdge_scale k e) es net

theorem ofEdges_scale (n : Nat) (es : List (Edge K)) :
    ofEdges n (es.map (.scale k)) = (ofEdges n es).map (.scale k) := by
  rw [ofEdges, ofEdges, mergeParallel_scale]
  split
  · rw [← addEdges_scale, unlinked_scale]
  · rfl

theorem classPopulations_scale (net : Network K) (p : Partition) :
    (net.scale k).classPopulations p = net.classPopulations p := by
  rw [classPopulations, classPopulations, zipIdx_scale, List.foldlM_map]
  rfl

omit [LinearOrder K] in
theorem classEdges_scale (net : Network K) (p : Partition) :
    (net.scale k).classEdges p = (net.classEdges p).map (List.map (.scale k)) := by
  rw [classEdges, classEdges, edges_scale, List.mapM_map]
  refine mapM_hom (fun e => ?_) net.edges
  exact bind_hom_right fun source => bind_hom_right fun target => rfl

theorem condense_scale (net : Network K) (p : Partition) :
    (net.scale k).condense p = (net.condense p).map (.scale k) := by
  rw [condense, condense, classPopulations_scale]
  split_ifs
  · refine bind_hom_right fun populations => bind_hom (net.classEdges_scale k p) fun es => ?_
    rw [mergeParallel_scale, ← addEdges_scale, unlinked_scale]
  · rfl

end Network

theorem checkEdges_scale [IsStrictOrderedRing K] {k : K} (hk : 0 < k) (es : List (Edge K)) :
    checkEdges (es.map (.scale k)) = (checkEdges es).mapError (Rejection.scale k) := by
  have hvalid : ((fun e : Edge K => decide (¬Weight.Valid e.weight)) ∘ Edge.scale k) =
      fun e => decide (¬Weight.Valid e.weight) := by
    funext e
    simp only [Function.comp_apply, Edge.scale, Weight.valid_iff, mul_nonneg_iff_of_pos_left hk]
  rw [checkEdges, checkEdges, List.find?_map, hvalid]
  cases es.find? fun e => ¬Weight.Valid e.weight <;> rfl

end Communities
