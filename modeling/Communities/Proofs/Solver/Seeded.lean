import Communities.Proofs.Solver.Curtailed
import Communities.Proofs.Solver.Leads
import Communities.Proofs.SourceGraph

/-!
# What a seed does

A seed draws its classes together before the first level, and does nothing else: the run is the one
on the network of the classes, with the first level carried back to the vertices. So only the order
of the labels of a seed matters, a class of it is never split, and a seed that ascends with the
vertices is none.

* `Hierarchy.CarriedBack`: each node has the label of its class at the first level;
  `Solver.RunsBack`: the same run, carried back.
* `Solver.runFrom_singletons`: where each class is one vertex there is nothing to carry back.
* `Solver.cluster_map_seed`: a seed may be relabelled in order.
* `Solver.cluster_seeded`: all of it, for weights that are not negative.
-/

namespace Communities

/-! ## Two runs above one network -/

/-- A hierarchy over the classes of `p`, and the same one over their members: at the first level each
of these has the label that its class has. -/
inductive Hierarchy.CarriedBack {W : Type} (p : Partition) : Hierarchy W → Hierarchy W → Prop
  /-- Nothing but the labels of the first level differs. -/
  | intro {first : Level W} {rest : List (Level W)} {coarse : Option (Network W)}
      {labels : Array Nat} (size_eq : labels.size = p.size)
      (label_eq : ∀ v < p.size, labels[v]? = first.labels[p.labelAt v]?) :
    CarriedBack p ⟨first :: rest, coarse⟩ ⟨{ first with labels := labels } :: rest, coarse⟩

theorem carriedBack_of_pullBack {W : Type} {p : Partition} {levels pulled : List (Level W)}
    (hne : levels ≠ []) (h : pullBack (some p) levels = .ok pulled) (coarse : Option (Network W)) :
    Hierarchy.CarriedBack p ⟨levels, coarse⟩ ⟨pulled, coarse⟩ := by
  obtain ⟨first, rest, rfl⟩ := List.exists_cons_of_ne_nil hne
  obtain ⟨labels, hcompose, h⟩ := bind_eq_ok_iff.1 h
  cases h
  obtain ⟨hlt, rfl⟩ := Hierarchy.compose_eq_ok_iff.1 hcompose
  refine .intro Array.size_map fun v hv => ?_
  have hv' : v < p.labels.size := hv
  have hlabel : p.labelAt v = p.labels[v] := by simp [Partition.labelAt, hv']
  have hclass : p.labels[v] < first.labels.size := hlt _ (Array.getElem_mem hv')
  rw [hlabel]
  simp [hv', hclass]

namespace Solver

variable {W : Type} [Weight W] {s : Solver W} {budget : Nat} {net base : Network W}

/-- What a run on the network of the classes of `p` comes to, and the same run carried back to their
members. Both report the same and leave the same space. -/
inductive RunsBack (p : Partition) :
    Except Interrupt (Run W × Solver W) → Except Interrupt (Run W × Solver W) → Prop
  /-- Neither ends. -/
  | interrupted (i : Interrupt) : RunsBack p (.error i) (.error i)
  /-- Both reject, for the same reason. -/
  | rejected (journal : List (Event W)) (e : Rejection W) (s : Solver W) :
    RunsBack p (.ok (⟨journal, .error e⟩, s)) (.ok (⟨journal, .error e⟩, s))
  /-- Both give a hierarchy, and only the labels of the first level differ. -/
  | answered (journal : List (Event W)) {h h' : Hierarchy W} (s : Solver W)
      (carried : h.CarriedBack p h') :
    RunsBack p (.ok (⟨journal, .ok h⟩, s)) (.ok (⟨journal, .ok h'⟩, s))

theorem runsBack_runFrom {p : Partition} (hback : ∀ levels coarse,
      Ascent s.settings 0 base levels coarse →
        ∃ first rest, pullBack (some p) levels = .ok (first :: rest)) (budget : Nat) :
    RunsBack p (s.runFrom budget none base) (s.runFrom budget (some p) base) := by
  cases hclimb : climb s.settings budget 0 base s.scratch with
  | error i =>
    rw [runFrom, runFrom, hclimb]
    exact .interrupted i
  | ok c =>
    obtain ⟨journal, result, scratch⟩ := c
    have hrun : ∀ {seed : Option Partition} {answer : Except (Rejection W) (Hierarchy W)},
        Carried seed result answer →
          s.runFrom budget seed base = .ok (⟨journal, answer⟩, ⟨s.settings, scratch⟩) :=
      fun hcarried => runFrom_eq_ok_iff.2 ⟨_, hclimb, rfl, rfl, hcarried⟩
    cases result with
    | error e =>
      rw [hrun (.rejected e), hrun (.rejected e)]
      exact .rejected journal e _
    | ok found =>
      obtain ⟨levels, coarse⟩ := found
      have hascent := climb_spec hclimb rfl
      obtain ⟨first, rest, hpulled⟩ := hback levels coarse hascent
      rw [hrun (.answered rfl hascent.ne_nil), hrun (.answered hpulled (List.cons_ne_nil _ _))]
      exact .answered journal _ (carriedBack_of_pullBack hascent.ne_nil hpulled coarse)

/-- Where each class is one node there is nothing to carry back. -/
theorem runFrom_singletons (hnet : net.Canonical) :
    s.runFrom budget (some (.singletons net.size)) net = s.runFrom budget none net := by
  rw [runFrom, runFrom]
  cases hclimb : climb s.settings budget 0 net s.scratch with
  | error i => rfl
  | ok c =>
    simp only [ok_bind]
    cases hresult : c.result with
    | error e => rfl
    | ok found =>
      obtain ⟨levels, coarse⟩ := found
      have hascent := climb_spec hclimb hresult
      obtain ⟨first, rest, rfl⟩ := List.exists_cons_of_ne_nil hascent.ne_nil
      have hcompose := Hierarchy.compose_range first.labels
      rw [hascent.size_labels hnet] at hcompose
      simp only [pullBack, Partition.singletons, hcompose, ok_bind]
      rfl

/-- A seed may be relabelled in order. -/
theorem cluster_map_seed (hedges : net.edgeCount ≠ 0) {p : Array Nat} {f : Nat → Nat}
    (hf : StrictMonoOn f {x | x ∈ p}) :
    s.cluster budget net (some (p.map f)) = s.cluster budget net (some p) := by
  have hcheck : checkSeed (W := W) net.size (some (p.map f)) = checkSeed net.size (some p) := by
    simp only [checkSeed, Array.size_map]
  have hsearch : s.search budget net (some (p.map f)) = s.search budget net (some p) := by
    rw [search, search, if_neg hedges, if_neg hedges, Option.map_some, Option.map_some,
      Partition.ofLabels_map hf]
  rw [cluster, cluster, hcheck, hsearch]

/-- What is together in a seed is so at every level. -/
theorem Answers.together {settings : Settings W} {p : Array Nat} {h : Hierarchy W} {k : Nat}
    (hnet : net.Canonical) (hedges : net.edgeCount ≠ 0)
    (hseed : checkSeed (W := W) net.size (some p) = .ok ())
    (hanswers : Answers settings net (some p) h) (hk : k < h.levels.length) :
    ∃ labels, h.partitionAt k = .ok (some labels) ∧ labels.size = net.size ∧
      ∀ u v : Nat, p[u]? = p[v]? → labels[u]? = labels[v]? := by
  cases hanswers with
  | edgeless hnone => exact absurd hnone hedges
  | @climbed base labels levels pulled coarse start ascent back =>
    obtain ⟨hbase, hsize, hmem⟩ := start.mem_labels hnet hseed
    have hlt : k < levels.length := length_pullBack back ▸ hk
    obtain ⟨g, -, hfollow⟩ := ascent.exists_follow (Q := fun _ _ _ => True)
      (fun _ _ _ => trivial) (fun _ _ _ _ _ _ => trivial) hbase (List.getElem?_eq_getElem hlt)
    refine ⟨labels.map g, start.partitionAt_eq hnet hseed ascent back hk
      (hfollow labels fun x => (hmem x).1), by rw [Array.size_map, hsize], fun u v huv => ?_⟩
    cases start
    simp [Partition.ofLabels, huv]

/-! ## Drawn together first -/

section Exact

variable {K : Type} [Field K] [LinearOrder K] [IsStrictOrderedRing K] {s : Solver K} {budget : Nat}
  {net base : Network K} {p : Array Nat}

/-- The two runs pass the same checks, since drawing together keeps weights that are not
negative. -/
private theorem runsBack_cluster (hnet : net.Canonical) (hedges : net.edgeCount ≠ 0)
    (hweights : ∀ e ∈ net.edges, 0 ≤ e.weight) (hp : p.size = net.size)
    (hbase : net.condense (.ofLabels p) = .ok base) (s : Solver K) (budget : Nat) :
    RunsBack (.ofLabels p) (s.cluster budget base none) (s.cluster budget net (some p)) := by
  have hseed : checkSeed (W := K) net.size (some p) = .ok () :=
    checkSeed_eq_ok_iff.2 fun _ h => Option.some.inj h ▸ hp
  have hstart : Start net (some p) base (Partition.ofLabels p).labels := .seeded hbase
  have hedges' : base.edgeCount ≠ 0 :=
    (hstart.aggregates hnet hseed).edgeCount_ne_zero hnet hedges
  cases hsettings : s.settings.check with
  | error e =>
    have hrefused : ∀ (net : Network K) (seed : Option (Array Nat)),
        s.cluster budget net seed = .ok (⟨[], .error e⟩, s) := fun net seed =>
      cluster_of_refused (by rw [hsettings]; rfl) budget
    rw [hrefused, hrefused]
    exact .rejected [] e s
  | ok =>
    have haccepted : s.Accepted net (some p) := ⟨hsettings, hseed, checkEdges_of_nonneg hweights⟩
    have haccepted' : s.Accepted base none :=
      ⟨hsettings, rfl, checkEdges_of_nonneg (hstart.nonneg hnet hseed hweights)⟩
    rw [haccepted.cluster_eq, haccepted'.cluster_eq, hstart.search_eq hedges,
      Start.vertices.search_eq hedges']
    exact runsBack_runFrom (fun _ _ ascent => hstart.exists_pullBack hnet hseed ascent) budget

omit [IsStrictOrderedRing K] in
theorem cluster_ascending_seed (hnet : net.Canonical) (hedges : net.edgeCount ≠ 0)
    (hp : p.size = net.size) (hascending : p.toList.Pairwise (· < ·)) :
    s.cluster budget net (some p) = s.cluster budget net none := by
  have hseed : checkSeed (W := K) net.size (some p) = checkSeed net.size none := by
    rw [checkSeed, checkSeed, if_pos hp]
  have halone : Partition.ofLabels p = .singletons net.size :=
    hp ▸ Partition.ofLabels_of_ascending hascending
  have hstart : Start net (some p) net (Partition.ofLabels p).labels :=
    .seeded (halone ▸ Network.condense_singletons hnet)
  have hsearch : s.search budget net (some p) = s.search budget net none := by
    rw [hstart.search_eq hedges, Start.vertices.search_eq hedges, Option.map_some, halone,
      runFrom_singletons hnet]
    rfl
  rw [cluster, cluster, hseed, hsearch]

/-- A run from a seed is the run on the network of its classes, carried back. Therefore only the
order of its labels matters, no level splits a class of it, and a seed that ascends with the
vertices is none. -/
theorem cluster_seeded (hnet : net.Built) (hedges : net.edgeCount ≠ 0)
    (hweights : ∀ e ∈ net.edges, 0 ≤ e.weight) (hp : p.size = net.size) (s : Solver K)
    (budget : Nat) :
    (∃ base, net.condense (.ofLabels p) = .ok base ∧
      RunsBack (.ofLabels p) (s.cluster budget base none) (s.cluster budget net (some p))) ∧
    (∀ f : Nat → Nat, StrictMonoOn f {x | x ∈ p} →
      s.cluster budget net (some (p.map f)) = s.cluster budget net (some p)) ∧
    (∀ run s' h k, s.cluster budget net (some p) = .ok (run, s') → run.result = .ok h →
      k < h.levels.length → ∃ labels, h.partitionAt k = .ok (some labels) ∧
        labels.size = net.size ∧ ∀ u v : Nat, p[u]? = p[v]? → labels[u]? = labels[v]?) ∧
    (p.toList.Pairwise (· < ·) →
      s.cluster budget net (some p) = s.cluster budget net none) := by
  have hcanonical := hnet.canonical
  refine ⟨?_, fun f hf => cluster_map_seed hedges hf, ?_,
    cluster_ascending_seed hcanonical hedges hp⟩
  · obtain ⟨base, hbase, -⟩ :=
      hcanonical.condense_eq_ok_of_fits (Partition.fits_ofLabels hp)
    exact ⟨base, hbase, runsBack_cluster hcanonical hedges hweights hp hbase s budget⟩
  · intro run s' h k hrun hh hk
    obtain ⟨haccepted, hanswers⟩ := cluster_spec hrun hh
    exact hanswers.together hcanonical hedges haccepted.seed_ok hk

end Exact

theorem cluster_seeded_kite :
    Network.kite.edgeCount ≠ 0 ∧ (∀ e ∈ Network.kite.edges, 0 ≤ e.weight) ∧
    ∃ s : Solver ℚ, s = ofSettings ⟨1 / 1000, .multilevel none, .ascending, none, false⟩ ∧
    (∃ base, Network.kite.condense (.ofLabels #[9, 4, 4, 9]) = .ok base ∧
      RunsBack (.ofLabels #[9, 4, 4, 9]) (s.cluster 2 base none)
        (s.cluster 2 Network.kite (some #[9, 4, 4, 9]))) ∧
    s.cluster 2 Network.kite (some #[10, 5, 5, 10]) =
      s.cluster 2 Network.kite (some #[9, 4, 4, 9]) ∧
    s.cluster 2 Network.kite (some #[2, 3, 5, 7]) = s.cluster 2 Network.kite none := by
  have hedges : Network.kite.edgeCount ≠ 0 := by decide
  have hweights : ∀ e ∈ Network.kite.edges, 0 ≤ e.weight := by decide +kernel
  refine ⟨hedges, hweights, _, rfl, ?_⟩
  obtain ⟨hback, hmap, -, -⟩ :=
    cluster_seeded Network.built_kite hedges hweights (p := #[9, 4, 4, 9]) rfl
      (ofSettings ⟨1 / 1000, .multilevel none, .ascending, none, false⟩) 2
  obtain ⟨-, -, -, hascending⟩ :=
    cluster_seeded Network.built_kite hedges hweights (p := #[2, 3, 5, 7]) rfl
      (ofSettings ⟨1 / 1000, .multilevel none, .ascending, none, false⟩) 2
  have hraised : (#[9, 4, 4, 9] : Array Nat).map (· + 1) = #[10, 5, 5, 10] := by simp
  rw [← hraised]
  exact ⟨hback, hmap (· + 1) fun _ _ _ _ hlt => Nat.succ_lt_succ hlt, hascending (by decide)⟩

end Solver

end Communities
