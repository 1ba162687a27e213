import Communities.EdgeList
import Communities.Proofs.Network.SameEdges
import Communities.Proofs.Text.Record

/-!
# Reading edge lists

What an edge list says is settled by the records of its text: each of them is an edge between two
labels, and the labels that occur are ranked. So the text can be written in another way, and as long
as the edges join the same vertices with the same weight, the network is the same. Where the labels
are mapped in order, the vertices get the same ids as before.

* `EdgeList.edge?`: the edge that a record stands for; `EdgeList.read_eq_ok_iff`: what is read.
* `EdgeList.ends_of_read`: the edges of an edge list are between its vertices, and
  `EdgeList.size_of_edgeless`: each of these is at the end of an edge.
* `EdgeList.Redraws`: how an edge line may be rewritten, and `EdgeList.read_rewritten`: what that
  makes of an edge list.
-/

namespace Communities

open Text

/-- Whole numbers as weights. -/
def Text.WeightText.whole : WeightText ℚ where
  read field := (number? field).map fun n => (n : ℚ)
  plain := toString
  scientific := toString
  fixed := toString

namespace EdgeList

variable {W : Type}

/-- The labels of the ends of edges. -/
def labels (edges : List (Edge W)) : List Nat := edges.flatMap fun e => [e.source, e.target]

theorem mem_vertices_ofLabelled {edges : List (Edge W)} {x : Nat} :
    x ∈ (ofLabelled edges).vertices.values ↔ x ∈ labels edges := Ranking.mem_values

theorem ends_ofLabelled (edges : List (Edge W)) :
    ∀ e ∈ (ofLabelled edges).edges,
      e.source < (ofLabelled edges).size ∧ e.target < (ofLabelled edges).size := by
  intro e he
  obtain ⟨raw, hraw, rfl⟩ := List.mem_map.1 he
  have hlabel : ∀ x ∈ [raw.source, raw.target],
      x ∈ edges.flatMap fun e => [e.source, e.target] := fun x hx =>
    List.mem_flatMap.2 ⟨raw, hraw, hx⟩
  exact ⟨Ranking.rank_lt_size (hlabel _ (by simp)), Ranking.rank_lt_size (hlabel _ (by simp))⟩

/-! ## Records -/

section Read

variable [Weight W]

/-- The weight that the fields behind the labels stand for. -/
def weight? (weights : WeightText W) : List (List Char) → Option W
  | [] => some 1
  | [weight] => weights.read weight
  | _ => none

/-- The edge that a record stands for, between labels. -/
def edge? (weights : WeightText W) : List (List Char) → Option (Edge W)
  | source :: target :: rest => do
    let source ← number? source
    let target ← number? target
    let weight ← weight? weights rest
    if Weight.Valid weight then some ⟨source, target, weight⟩ else none
  | _ => none

variable {weights : WeightText W} {s : Source} {es : EdgeList W}

private theorem ite_bind_eq_ok_iff {ε α β : Type} {p : Prop} [Decidable p] {a : α} {e : ε}
    {f : α → Except ε β} {b : β} :
    ((if p then Except.ok a else Except.error e) >>= f) = Except.ok b ↔ p ∧ f a = Except.ok b := by
  by_cases hp : p <;> simp [hp]

theorem readEdge_eq_ok_iff (r : Record) (e : Edge W) :
    readEdge weights r = .ok e ↔ edge? weights r.fields = some e := by
  obtain ⟨line, fields⟩ := r
  have hread : ∀ (field : List Char), Decimal.natural? countBound field = number? field :=
    fun _ => rfl
  simp only [readEdge, readWeight, Record.number, Record.field, hread]
  obtain _ | ⟨source, _ | ⟨target, _ | ⟨weight, _ | ⟨_, rest⟩⟩⟩⟩ := fields
  · simp [edge?]
  · cases hs : number? source <;> simp [edge?, hs]
  · cases hs : number? source <;> cases ht : number? target <;>
      simp [edge?, weight?, hs, ht, ite_bind_eq_ok_iff]
  · cases hs : number? source <;> cases ht : number? target <;> cases hw : weights.read weight <;>
      simp [edge?, weight?, hs, ht, hw, ite_bind_eq_ok_iff]
  · simp [edge?, weight?]

theorem edge?_eq_some_iff {source target : List Char} {rest : List (List Char)} {e : Edge W} :
    edge? weights (source :: target :: rest) = some e ↔
      number? source = some e.source ∧ number? target = some e.target ∧
        weight? weights rest = some e.weight ∧ Weight.Valid e.weight := by
  obtain ⟨s, t, w⟩ := e
  simp only [edge?, Option.bind_eq_bind, Option.bind_eq_some_iff, Option.ite_none_right_eq_some,
    Option.some.injEq, Edge.mk.injEq]
  constructor
  · rintro ⟨_, hs, _, ht, _, hw, hvalid, rfl, rfl, rfl⟩
    exact ⟨hs, ht, hw, hvalid⟩
  · rintro ⟨hs, ht, hw, hvalid⟩
    exact ⟨s, hs, t, ht, w, hw, hvalid, rfl, rfl, rfl⟩

theorem read_eq_ok_iff : read weights s = .ok es ↔
    ∃ rs edges, s.Holds rs ∧ List.Forall₂ (fun fs e => edge? weights fs = some e) rs edges ∧
      (ofLabelled edges).size < idBound ∧ es = ofLabelled edges := by
  rw [read, bind_eq_ok_iff]
  simp only [Source.mapRecords_eq_ok_iff readEdge_eq_ok_iff]
  constructor
  · rintro ⟨edges, ⟨rs, hs, hedges⟩, h⟩
    split at h
    · next hsize => cases h; exact ⟨rs, edges, hs, hedges, hsize, rfl⟩
    · cases h
  · rintro ⟨rs, edges, hs, hedges, hsize, rfl⟩
    exact ⟨edges, ⟨rs, hs, hedges⟩, if_pos hsize⟩

theorem pairwise_of_read (h : read weights s = .ok es) :
    es.vertices.values.toList.Pairwise (· < ·) := by
  obtain ⟨-, edges, -, -, -, rfl⟩ := read_eq_ok_iff.1 h
  exact Ranking.values_pairwise _

theorem ends_of_read (h : read weights s = .ok es) :
    es.size < idBound ∧ ∀ e ∈ es.edges, e.source < es.size ∧ e.target < es.size := by
  obtain ⟨-, edges, -, -, hsize, rfl⟩ := read_eq_ok_iff.1 h
  exact ⟨hsize, ends_ofLabelled edges⟩

/-- Every vertex is an end of an edge. -/
theorem size_of_edgeless {net : Network W} (h : read weights s = .ok es)
    (hnet : es.toNetwork = .ok net) (hedges : net.edgeCount = 0) : es.size = 0 := by
  obtain ⟨-, edges, -, -, -, rfl⟩ := read_eq_ok_iff.1 h
  rw [(Network.ofEdges_canonical hnet).edgeCount_eq, Network.edges_ofEdges hnet,
    List.length_eq_zero_iff] at hedges
  cases edges with
  | nil => exact Nat.le_zero.1 (Ranking.size_ofList_le [])
  | cons e edges =>
    obtain ⟨a, ha, -⟩ := (ends_mergeParallel (ofLabelled (e :: edges)).edges _ _).2
      ⟨_, List.mem_cons_self, rfl, rfl⟩
    exact absurd (hedges ▸ ha) List.not_mem_nil

end Read

/-! ## Rewriting -/

section Rewrite

variable {f : Nat → Nat}

private theorem raise_swap (u v : Nat) (w : W) : (⟨v, u, w⟩ : Edge W).raise = Edge.raise ⟨u, v, w⟩ := by
  unfold Edge.raise
  dsimp only
  split <;> split
  · next h h' => rw [Nat.le_antisymm h h']
  · rfl
  · rfl
  · omega

private theorem raise_mapEnds_raise (g : Nat → Nat) (e : Edge W) :
    (e.raise.mapEnds g).raise = (e.mapEnds g).raise := by
  by_cases h : e.source ≤ e.target
  · rw [show e.raise = e from if_pos h]
  · rw [show e.raise = ⟨e.target, e.source, e.weight⟩ from if_neg h]
    exact raise_swap (g e.source) (g e.target) e.weight

private theorem labels_map_raise (edges : List (Edge W)) :
    (labels (edges.map Edge.raise)).Perm (labels edges) := by
  rw [labels, labels, List.flatMap_map]
  refine List.Perm.flatMap_left _ fun e _ => ?_
  rw [Edge.raise]
  split
  · rfl
  · exact List.Perm.swap ..

theorem labels_perm {edges edges' : List (Edge W)}
    (h : (edges.map fun e => (e.mapEnds f).raise).Perm (edges'.map Edge.raise)) :
    ((labels edges).map f).Perm (labels edges') := by
  have hmap : (labels edges).map f = labels (edges.map (Edge.mapEnds f)) := by
    rw [labels, labels, List.map_flatMap, List.flatMap_map]
    rfl
  have hraise : (edges.map fun e => (e.mapEnds f).raise) =
      (edges.map (Edge.mapEnds f)).map Edge.raise := by rw [List.map_map]; rfl
  rw [hmap]
  rw [hraise] at h
  exact (labels_map_raise _).symm.trans ((h.flatMap_right _).trans (labels_map_raise _))

/-- Edges that are drawn again, from either end and in any order, with labels mapped in order. -/
theorem ofLabelled_redrawn {K : Type} [Field K] {edges edges' : List (Edge K)}
    (hf : StrictMonoOn f {x | x ∈ labels edges})
    (h : (edges.map fun e => (e.mapEnds f).raise).Perm (edges'.map Edge.raise)) :
    (ofLabelled edges').vertices.values.toList = (ofLabelled edges).vertices.values.toList.map f ∧
      SameEdges (ofLabelled edges).edges (ofLabelled edges').edges := by
  have hvertices : (ofLabelled edges').vertices = .ofList ((labels edges).map f) :=
    Ranking.ofList_congr fun x => (labels_perm h).symm.mem_iff
  refine ⟨by rw [hvertices, Ranking.values_map hf]; rfl, SameEdges.of_perm ?_⟩
  -- Raised edges are renamed alike, whichever end they were written from.
  have hrank : ∀ e ∈ edges, e.mapEnds (ofLabelled edges).vertices.rank =
      (e.mapEnds f).mapEnds (ofLabelled edges').vertices.rank := by
    intro e he
    have hends : ∀ x ∈ [e.source, e.target], (ofLabelled edges').vertices.rank (f x) =
        (ofLabelled edges).vertices.rank x := fun x hx => by
      rw [hvertices, Ranking.rank_map hf (List.mem_flatMap.2 ⟨e, he, hx⟩)]
      rfl
    simp only [Edge.mapEnds, hends e.source (by simp), hends e.target (by simp)]
  have hedges : ∀ edges : List (Edge K), (ofLabelled edges).edges.map Edge.raise =
      (edges.map Edge.raise).map fun e => (e.mapEnds (ofLabelled edges).vertices.rank).raise :=
    fun edges => by
      simp only [List.map_map, Function.comp_def, raise_mapEnds_raise]
      exact List.map_map
  rw [hedges edges']
  refine List.Perm.trans ?_ (h.map _)
  simp only [List.map_map, Function.comp_def, raise_mapEnds_raise]
  rw [show (ofLabelled edges).edges = edges.map (Edge.mapEnds (ofLabelled edges).vertices.rank)
    from rfl, List.map_map]
  exact List.Perm.of_eq (List.map_congr_left fun e he => by rw [Function.comp, hrank e he])

/-- A record may be rewritten to one that stands for the same edge, from either end, with the labels
mapped by `f`. -/
def Redraws [Weight W] (weights : WeightText W) (f : Nat → Nat)
    (R : List (List Char) → List (List Char) → Prop) : Prop :=
  ∀ fs fs' e, R fs fs' → edge? weights fs = some e →
    ∃ e', edge? weights fs' = some e' ∧ e'.raise = (e.mapEnds f).raise

variable {K : Type} [Field K] [LinearOrder K] {weights : WeightText K} {s s' : Source}
  {es : EdgeList K} {R : List (List Char) → List (List Char) → Prop}

theorem size_of_values {es es' : EdgeList W}
    (h : es'.vertices.values.toList = es.vertices.values.toList.map f) : es'.size = es.size := by
  simpa [size, Ranking.size] using congrArg List.length h

theorem read_rewritten (hread : read weights s = .ok es)
    (hf : StrictMonoOn f {x | x ∈ es.vertices.values}) (hR : Redraws weights f R)
    (hs : s.Rewritten R s') :
    ∃ es', read weights s' = .ok es' ∧ es'.toNetwork = es.toNetwork ∧
      es'.vertices.values.toList = es.vertices.values.toList.map f := by
  obtain ⟨rs, edges, hrs, hedges, hsize, rfl⟩ := read_eq_ok_iff.1 hread
  obtain ⟨rs', edges', hrs', hedges', hperm⟩ :=
    hs.exists_forall₂ hrs hedges (fun e => (e.mapEnds f).raise) Edge.raise hR
  simp only [mem_vertices_ofLabelled] at hf
  obtain ⟨hvalues, hsame⟩ := ofLabelled_redrawn hf hperm
  have hsizes := size_of_values hvalues
  refine ⟨ofLabelled edges', read_eq_ok_iff.2 ⟨rs', edges', hrs', hedges', by rwa [hsizes], rfl⟩,
    ?_, hvalues⟩
  rw [toNetwork, toNetwork, hsizes, Network.ofEdges_congr hsame]

/-! ### Ways to rewrite -/

/-- The same record, or one with the ends of the edge swapped. -/
def Swaps (fs fs' : List (List Char)) : Prop :=
  fs' = fs ∨ ∃ source target rest, fs = source :: target :: rest ∧ fs' = target :: source :: rest

theorem redraws_swaps (weights : WeightText K) : Redraws weights id Swaps := by
  rintro fs fs' e (rfl | ⟨source, target, rest, rfl, rfl⟩) he
  · exact ⟨e, he, rfl⟩
  · obtain ⟨hs, ht, hw, hvalid⟩ := edge?_eq_some_iff.1 he
    exact ⟨⟨e.target, e.source, e.weight⟩, edge?_eq_some_iff.2 ⟨ht, hs, hw, hvalid⟩,
      raise_swap e.source e.target e.weight⟩

theorem redraws_relabels (weights : WeightText K) (f : Nat → Nat) :
    Redraws weights f (Relabels f 2) := by
  rintro fs fs' e ⟨hdrop, htake⟩ he
  match fs with
  | [] => cases he
  | [_] => cases he
  | source :: target :: rest =>
    obtain ⟨hs, ht, hw, hvalid⟩ := edge?_eq_some_iff.1 he
    match fs' with
    | [] => cases htake
    | [_] => obtain _ | ⟨-, _ | _⟩ := htake
    | source' :: target' :: rest' =>
      obtain _ | ⟨hsource, _ | ⟨htarget, -⟩⟩ := htake
      obtain rfl : rest' = rest := hdrop
      exact ⟨e.mapEnds f, edge?_eq_some_iff.2 ⟨hsource _ hs, htarget _ ht, hw, hvalid⟩, rfl⟩

end Rewrite

end EdgeList

end Communities
