import Communities.Proofs.Solver.Presentation
import Communities.Proofs.Solver.Faultless
import Communities.Proofs.LocalSearch.SweepCap

/-!
# What a solver objects to

A run looks a graph over in several places, and partly twice: the direction, the settings and the
seed before the network is built, the size and the visited weights while it is, and the settings,
the seed and the merged weights once more on the network. All that it could object to is listed here
in one order, and the answer is always the first entry of that list.

* `Settings.objections`, `seedObjections` and `edgeObjections`: what each check could name;
  `verdict`: the first of it. `Settings.check_eq`, `checkSeed_eq` and `checkEdges_eq`: so the checks
  decide.
* `objections`: all of it, in the order in which it counts.
* `Solver.cluster_eq_verdict` and `Solver.run_eq_verdict`: a run is rejected for the first
  objection, and goes on where there is none.
* `Solver.rejected_for_first`: runs on graphs and on networks, and what is left to reject then.
-/

namespace Communities

variable {V W : Type}

/-! ## Objections -/

/-- The first of some objections decides. -/
def verdict (objections : List (Rejection W)) : Except (Rejection W) Unit :=
  match objections with
  | e :: _ => .error e
  | [] => .ok ()

theorem verdict_append (es es' : List (Rejection W)) :
    verdict (es ++ es') = verdict es >>= fun _ => verdict es' := by
  cases es <;> rfl

theorem verdict_eq_error_iff {es : List (Rejection W)} {e : Rejection W} :
    verdict es = .error e ↔ es.head? = some e := by
  cases es <;> simp [verdict]

theorem verdict_eq_ok_iff {es : List (Rejection W)} : verdict es = .ok () ↔ es = [] := by
  cases es <;> simp [verdict]

/-- The length of a seed, if it is not the number of the nodes. -/
def seedObjections (nodes : Nat) (seed : Option (Array Nat)) : List (Rejection W) :=
  seed.toList.filterMap fun labels =>
    if labels.size = nodes then none else some (.seedSize nodes labels.size)

theorem checkSeed_eq (nodes : Nat) (seed : Option (Array Nat)) :
    checkSeed (W := W) nodes seed = verdict (seedObjections nodes seed) := by
  cases seed with
  | none => rfl
  | some labels => by_cases h : labels.size = nodes <;> simp [checkSeed, seedObjections, verdict, h]

variable [Weight W]

/-- The settings that are out of range, in the order in which they are looked at. -/
def Settings.objections (s : Settings W) : List (Rejection W) :=
  (if Weight.isFinite s.threshold = true ∧ 0 < s.threshold then [] else [.setting .threshold]) ++
  (if s.maxSweeps = some 0 then [.setting .maxSweeps] else []) ++
  (if s.levels = .multilevel (some 0) then [.setting .maxLevels] else [])

theorem Settings.check_eq (s : Settings W) : s.check = verdict s.objections := by
  rw [check, objections, verdict_append, verdict_append]
  split_ifs <;> rfl

/-- The edges whose weights are not valid, in their order. -/
def edgeObjections (es : List (Edge W)) : List (Rejection W) :=
  (es.filter fun e => ¬Weight.Valid e.weight).map fun e => .edgeWeight e.source e.target e.weight

theorem checkEdges_eq (es : List (Edge W)) : checkEdges es = verdict (edgeObjections es) := by
  rw [checkEdges, edgeObjections, ← List.head?_filter]
  cases es.filter fun e => ¬Weight.Valid e.weight <;> rfl

/-- All that a run could object to, from what counts most. -/
def objections (settings : Settings W) (directed : Bool) (nodes : Nat) (seed : Option (Array Nat))
    (es : List (Edge W)) : List (Rejection W) :=
  (if directed then [.directed] else []) ++ settings.objections ++ seedObjections nodes seed ++
    (if nodes < idBound then [] else [.tooManyNodes nodes]) ++ edgeObjections es

/-- The checks, one after the other, come to the first of them. -/
theorem verdict_objections (settings : Settings W) (directed : Bool) (nodes : Nat)
    (seed : Option (Array Nat)) (es : List (Edge W)) :
    verdict (objections settings directed nodes seed es) = (do
      if directed then throw .directed
      settings.check
      checkSeed nodes seed
      if ¬nodes < idBound then throw (.tooManyNodes nodes)
      checkEdges es) := by
  rw [objections, verdict_append, verdict_append, verdict_append, verdict_append,
    settings.check_eq, checkSeed_eq, checkEdges_eq]
  by_cases hdirected : directed = true
  · rw [if_pos hdirected, if_pos hdirected]
    rfl
  rw [if_neg hdirected, if_neg hdirected]
  cases verdict settings.objections with
  | error e => rfl
  | ok =>
    cases verdict (seedObjections nodes seed) with
    | error e => rfl
    | ok =>
      by_cases hnodes : nodes < idBound
      · rw [if_pos hnodes, if_neg (not_not.2 hnodes)]
        rfl
      · rw [if_neg hnodes, if_pos hnodes]
        rfl

/-! ## What is left to reject -/

/-- A climb is only rejected where the cap on sweeps stops a search. -/
theorem Climbs.maxSweeps_of_error {settings : Settings W} {budget number : Nat}
    {current : Network W} {scratch : Scratch W} {networks : List (Network W)} {c : Climb W}
    (h : Climbs settings budget number current scratch networks c) {e : Rejection W}
    (he : c.result = .error e) :
    ∃ j cap, e = .notConverged j cap ∧ settings.maxSweeps = some cap := by
  induction h with
  | capped ran stopped =>
    cases he
    exact ⟨_, _, rfl, Search.maxSweeps_of_capped ran stopped⟩
  | rest | still | top => cases he
  | step _ _ _ _ _ _ _ ih => exact ih (map_eq_error_iff.1 he)

/-! ## Runs -/

namespace Solver

variable {s s' : Solver W} {budget : Nat} {net : Network W} {seed : Option (Array Nat)}
  {run : Run W} {g : SourceGraph V} {weight : Option (V → W)} {e : Rejection W}

theorem cluster_eq_verdict (hsize : net.size < idBound) (s : Solver W) (budget : Nat)
    (seed : Option (Array Nat)) : s.cluster budget net seed =
      match verdict (objections s.settings false net.size seed net.edges) with
      | .error e => .ok (⟨[], .error e⟩, s)
      | .ok () => s.search budget net seed := by
  have hchecks : verdict (objections s.settings false net.size seed net.edges) =
      (do s.settings.check; checkSeed net.size seed; checkEdges net.edges) := by
    rw [verdict_objections, if_neg (not_not.2 hsize)]
    rfl
  cases hverdict : verdict (objections s.settings false net.size seed net.edges) with
  | error e => rw [cluster, ← hchecks, hverdict]
  | ok => rw [cluster, ← hchecks, hverdict]

theorem run_eq_verdict (hends : ∀ e ∈ g.edges, e.source < g.nodeCount ∧ e.target < g.nodeCount)
    (s : Solver W) (budget : Nat) (weight : Option (V → W)) (seed : Option (Array Nat)) :
    s.run budget g weight seed =
      match verdict (objections s.settings g.directed g.nodeCount seed (g.weighed weight)) with
      | .error e => .ok (⟨[], .error e⟩, s)
      | .ok () => liftM (Network.ofEdges g.nodeCount (g.weighed weight)) >>= fun net =>
          s.cluster budget net seed := by
  have hweighed : ∀ e ∈ g.weighed weight, e.source < g.nodeCount ∧ e.target < g.nodeCount := by
    intro e he
    obtain ⟨e', he', rfl⟩ := List.mem_map.1 he
    exact hends e' he'
  rw [run, verdict_objections]
  by_cases hdirected : g.directed = true
  · rw [if_pos hdirected, if_pos hdirected]
    rfl
  rw [if_neg hdirected, if_neg hdirected]
  cases s.settings.check with
  | error e => rfl
  | ok =>
    cases checkSeed g.nodeCount seed with
    | error e => rfl
    | ok =>
      by_cases hnodes : g.nodeCount < idBound
      · obtain ⟨net, hnet, -⟩ := Network.exists_ofEdges hnodes hweighed
        rw [if_neg (not_not.2 hnodes), SourceGraph.toNetwork_eq_ok hnodes hweighed hnet, hnet]
        cases checkEdges (g.weighed weight) <;> rfl
      · rw [if_pos hnodes, SourceGraph.toNetwork, if_neg hnodes]
        rfl

/-- The one thing that a run on `edges` edges may still be rejected for. -/
def OnlyCapped (settings : Settings W) (edges : Nat) (found : Except Interrupt (Run W × Solver W)) :
    Prop :=
  ∀ run s e, found = .ok (run, s) → run.result = .error e →
    edges ≠ 0 ∧ ∃ j cap, e = .notConverged j cap ∧ settings.maxSweeps = some cap

theorem onlyCapped_search {s : Solver W} {net : Network W} (budget : Nat)
    (seed : Option (Array Nat)) :
    OnlyCapped s.settings net.edgeCount (s.search budget net seed) := by
  intro run s' e hrun he
  by_cases hedges : net.edgeCount = 0
  · rw [search_edgeless hedges] at hrun
    cases hrun
    cases he
  · refine ⟨hedges, ?_⟩
    obtain ⟨base, labels, hstart⟩ := exists_start hrun hedges
    rw [hstart.search_eq hedges, runFrom_eq_ok_iff] at hrun
    obtain ⟨c, hclimb, -, -, hcarried⟩ := hrun
    obtain ⟨networks, hclimbs⟩ := climb_eq_ok_iff.1 hclimb
    rw [he] at hcarried
    generalize hresult : c.result = found at hcarried
    cases hcarried
    exact hclimbs.maxSweeps_of_error hresult

/-- Without an objection a graph is run as its network. -/
theorem exists_network (hends : ∀ e ∈ g.edges, e.source < g.nodeCount ∧ e.target < g.nodeCount)
    (hnone : objections s.settings g.directed g.nodeCount seed (g.weighed weight) = [])
    (budget : Nat) : ∃ net, Network.ofEdges g.nodeCount (g.weighed weight) = .ok net ∧
      s.run budget g weight seed = s.cluster budget net seed := by
  have hnodes : g.nodeCount < idBound := by
    by_contra hnodes
    simp [objections, hnodes] at hnone
  have hweighed : ∀ e ∈ g.weighed weight, e.source < g.nodeCount ∧ e.target < g.nodeCount := by
    intro e he
    obtain ⟨e', he', rfl⟩ := List.mem_map.1 he
    exact hends e' he'
  obtain ⟨net, hnet, -⟩ := Network.exists_ofEdges hnodes hweighed
  exact ⟨net, hnet, by rw [run_eq_verdict hends, hnone, hnet]; rfl⟩

theorem onlyCapped_cluster (hnet : net.Canonical)
    (hnone : objections s.settings false net.size seed net.edges = []) (budget : Nat) :
    OnlyCapped s.settings net.edgeCount (s.cluster budget net seed) := by
  rw [cluster_eq_verdict hnet.size_lt, hnone]
  exact onlyCapped_search budget seed

section Exact

variable {K : Type} [Field K] [LinearOrder K] [IsStrictOrderedRing K] {g : SourceGraph V}
  {weight : Option (V → K)} {net : Network K}

/-- Weights that are accepted are accepted again when they are merged. -/
theorem checkEdges_mergeParallel {es : List (Edge K)} (h : checkEdges es = .ok ()) :
    checkEdges (mergeParallel es) = .ok () :=
  checkEdges_of_nonneg <| nonneg_mergeParallel fun e he =>
    (Weight.valid_iff _).1 (checkEdges_eq_ok_iff.1 h e he)

/-- So they are in the network that comes of a graph. -/
theorem checkEdges_of_toNetwork (h : g.toNetwork weight = .ok (.ok net)) :
    checkEdges net.edges = .ok () := by
  obtain ⟨-, hvalid, hbuilt⟩ := SourceGraph.toNetwork_eq_ok_iff.1 h
  rw [Network.edges_ofEdges hbuilt]
  refine checkEdges_mergeParallel (checkEdges_eq_ok_iff.2 fun e he => ?_)
  obtain ⟨e', he', rfl⟩ := List.mem_map.1 he
  exact hvalid e' he'

/-- So there is nothing to object to in the network of a graph if there was nothing in the graph. -/
theorem objections_ofEdges {settings : Settings K} {seed : Option (Array Nat)}
    (hnet : Network.ofEdges g.nodeCount (g.weighed weight) = .ok net)
    (hnone : objections settings g.directed g.nodeCount seed (g.weighed weight) = []) :
    objections settings false net.size seed net.edges = [] := by
  have hsize := Network.size_ofEdges hnet
  have hlt := (Network.ofEdges_canonical hnet).size_lt
  simp only [objections, List.append_eq_nil_iff] at hnone ⊢
  obtain ⟨⟨⟨⟨-, hsettings⟩, hseed⟩, -⟩, hedges⟩ := hnone
  refine ⟨⟨⟨⟨rfl, hsettings⟩, hsize ▸ hseed⟩, if_pos hlt⟩, ?_⟩
  rw [← verdict_eq_ok_iff, ← checkEdges_eq] at hedges ⊢
  rw [Network.edges_ofEdges hnet]
  exact checkEdges_mergeParallel hedges

end Exact

/-- Runs on graphs and on networks are rejected for the first objection there is, and go on without
one; after that only the cap on sweeps can stop them. In exact arithmetic a network has no edge to
object to if its graph had none. -/
theorem rejected_for_first {V W K : Type} [Weight W] [Field K] [LinearOrder K]
    [IsStrictOrderedRing K] :
    (∀ (s : Solver W) (budget : Nat) (g : SourceGraph V) (weight : Option (V → W))
      (seed : Option (Array Nat)),
      (∀ e ∈ g.edges, e.source < g.nodeCount ∧ e.target < g.nodeCount) →
      (∀ e, (objections s.settings g.directed g.nodeCount seed (g.weighed weight)).head? = some e →
        s.run budget g weight seed = .ok (⟨[], .error e⟩, s)) ∧
      (objections s.settings g.directed g.nodeCount seed (g.weighed weight) = [] →
        ∃ net, Network.ofEdges g.nodeCount (g.weighed weight) = .ok net ∧
          s.run budget g weight seed = s.cluster budget net seed)) ∧
    (∀ (s : Solver W) (budget : Nat) (net : Network W) (seed : Option (Array Nat)), net.Built →
      net.edges.Pairwise Edge.Before ∧
      (∀ e, (objections s.settings false net.size seed net.edges).head? = some e →
        s.cluster budget net seed = .ok (⟨[], .error e⟩, s)) ∧
      (objections s.settings false net.size seed net.edges = [] →
        Faultless (s.cluster budget net seed) ∧
          OnlyCapped s.settings net.edgeCount (s.cluster budget net seed))) ∧
    (∀ (g : SourceGraph V) (weight : Option (V → K)) (net : Network K),
      g.toNetwork weight = .ok (.ok net) → checkEdges net.edges = .ok ()) ∧
    ∀ (s : Solver K) (budget : Nat) (g : SourceGraph V) (weight : Option (V → K))
      (seed : Option (Array Nat)),
      (∀ e ∈ g.edges, e.source < g.nodeCount ∧ e.target < g.nodeCount) →
      objections s.settings g.directed g.nodeCount seed (g.weighed weight) = [] →
      Faultless (s.run budget g weight seed) ∧
        OnlyCapped s.settings g.edges.length (s.run budget g weight seed) := by
  refine ⟨?_, ?_, fun g weight net => checkEdges_of_toNetwork, ?_⟩
  · intro s budget g weight seed hends
    refine ⟨fun e he => ?_, fun hnone => exists_network hends hnone budget⟩
    rw [run_eq_verdict hends, verdict_eq_error_iff.2 he]
  · intro s budget net seed hnet
    have hcanonical := hnet.canonical
    refine ⟨hcanonical.ascending.pairwise, fun e he => ?_,
      fun hnone => ⟨cluster_faultless hcanonical s budget seed,
        onlyCapped_cluster hcanonical hnone budget⟩⟩
    rw [cluster_eq_verdict hcanonical.size_lt, verdict_eq_error_iff.2 he]
  · intro s budget g weight seed hends hnone
    obtain ⟨net, hnet, hrun⟩ := exists_network hends hnone budget
    have hcanonical := Network.ofEdges_canonical hnet
    rw [hrun]
    refine ⟨cluster_faultless hcanonical s budget seed, fun run s' e hfound he => ?_⟩
    obtain ⟨hedges, hcapped⟩ :=
      onlyCapped_cluster hcanonical (objections_ofEdges hnet hnone) budget run s' e hfound he
    refine ⟨fun hnil => hedges ?_, hcapped⟩
    rw [hcanonical.edgeCount_eq, Network.edges_ofEdges hnet, SourceGraph.weighed,
      List.length_eq_zero_iff.1 hnil]
    simp [mergeParallel]

/-- A seed of the wrong length counts before the weights, and of these the one visited first. -/
theorem rejected_for_first_pair :
    (ofSettings ⟨1 / 10, .single, .ascending, none, false⟩ : Solver ℚ).run 1
        ⟨false, 2, [⟨1, 0, -1⟩, ⟨0, 1, -2⟩]⟩ (some fun w : ℚ => w) (some #[0]) =
      .ok (⟨[], .error (.seedSize 2 1)⟩,
        ofSettings ⟨1 / 10, .single, .ascending, none, false⟩) ∧
    (ofSettings ⟨1 / 10, .single, .ascending, none, false⟩ : Solver ℚ).run 1
        ⟨false, 2, [⟨1, 0, -1⟩, ⟨0, 1, -2⟩]⟩ (some fun w : ℚ => w) none =
      .ok (⟨[], .error (.edgeWeight 1 0 (-1))⟩,
        ofSettings ⟨1 / 10, .single, .ascending, none, false⟩) := by
  have hends : ∀ e ∈ (⟨false, 2, [⟨1, 0, -1⟩, ⟨0, 1, -2⟩]⟩ : SourceGraph ℚ).edges,
      e.source < 2 ∧ e.target < 2 := by decide
  exact ⟨((rejected_for_first (K := ℚ)).1 _ 1 _ _ _ hends).1 _ (by decide +kernel),
    ((rejected_for_first (K := ℚ)).1 _ 1 _ _ _ hends).1 _ (by decide +kernel)⟩

end Solver

end Communities
