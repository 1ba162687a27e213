import Communities.Proofs.Solver.Carry
import Communities.Proofs.Solver.Levels

/-!
# Reported scores are true

Each level of a hierarchy reports a modularity that was computed on the network of that level. It is
the modularity of the partition of the vertices at that level, computed on the network of the
vertices: drawing together keeps the quality of every coarser partition, and carrying labels through
the levels gives the partition whose quality that is.

* `Ascent.follow`: the labels of a chain of levels compose to the partition that the last of them
  scores.
* `Solver.Start.spec`: the same for the step from the vertices to the network a run starts from.
* `Solver.modularity_partitionAt`: every level of a hierarchy reports its true modularity.
-/

namespace Communities

/-! ## Through the levels -/

section Levels

variable {K : Type} [Field K] [LinearOrder K]

/-- What a level reports is the quality of where the levels up to it lead the nodes. -/
def Follows (current : Network K) (levels : List (Level K)) (k : Nat) (level : Level K) : Prop :=
  ∃ g : Nat → Nat, level.modularity = quality current.edges g ∧
    ∀ fine : Array Nat, (∀ x ∈ fine, x < current.size) →
      Hierarchy.follow (levels.take (k + 1)) fine = .ok (fine.map g)

theorem Ascent.follow [IsStrictOrderedRing K] {settings : Settings K} {number : Nat}
    {current : Network K} {levels : List (Level K)} {coarse : Option (Network K)}
    (hnet : current.Canonical) (h : Ascent settings number current levels coarse) {k : Nat}
    {level : Level K} (hk : levels[k]? = some level) : Follows current levels k level := by
  refine Ascent.exists_follow
    (Q := fun current level g => level.modularity = quality current.edges g)
    (fun hnet found scored => (found.scored hnet scored).modularity_eq)
    (fun hnet found scored hdrawn _ hlevel => ?_) hnet h hk
  obtain ⟨-, -, hquality, -⟩ := (found.scored hnet scored).drawn hnet hdrawn
  rw [hlevel, hquality]

end Levels

namespace Solver

/-! ## From the vertices -/

section Start

variable {K : Type} [Field K] [LinearOrder K] {net base : Network K} {seed : Option (Array Nat)}
  {labels : Array Nat}

/-- What is known where a run starts. -/
structure Start.Spec (net base : Network K) (labels : Array Nat) : Prop where
  /-- The network has its form. -/
  canonical : base.Canonical
  /-- Each vertex is in a node. -/
  size_eq : labels.size = net.size
  /-- The nodes are those of the network. -/
  label_lt : ∀ x ∈ labels, x < base.size
  /-- There are no more nodes than vertices. -/
  size_le : base.size ≤ net.size
  /-- The vertices get the quality that the nodes have. -/
  quality_eq : ∀ g, quality base.edges g = quality net.edges fun v => g (labels.getD v 0)

theorem Start.spec (hnet : net.Canonical) (hseed : checkSeed (W := K) net.size seed = .ok ())
    (h : Start net seed base labels) : Start.Spec net base labels := by
  obtain ⟨hcanonical, hsize, hmem⟩ := h.mem_labels hnet hseed
  cases h with
  | vertices =>
    refine ⟨hcanonical, hsize, fun x => (hmem x).1, Nat.le_refl _, fun g => ?_⟩
    refine quality_congr hnet.endsBelow fun u hu v hv => ?_
    simp [Array.getD, hu, hv]
  | @seeded given base drawn =>
    have hfits := Partition.fits_ofLabels (checkSeed_eq_ok_iff.1 hseed given rfl)
    obtain ⟨-, hbase, hquality⟩ := hfits.drawn hnet drawn
    exact ⟨hcanonical, hsize, fun x => (hmem x).1, hbase.symm ▸ hfits.count_le, hquality⟩

theorem Start.nonneg [IsStrictOrderedRing K] (hnet : net.Canonical)
    (hseed : checkSeed (W := K) net.size seed = .ok ()) (h : Start net seed base labels)
    (hweights : ∀ e ∈ net.edges, 0 ≤ e.weight) : ∀ e ∈ base.edges, 0 ≤ e.weight := by
  cases h with
  | vertices => exact hweights
  | @seeded given base drawn =>
    have hfits := Partition.fits_ofLabels (checkSeed_eq_ok_iff.1 hseed given rfl)
    exact Network.nonneg_condense hnet hfits hweights drawn

end Start

/-! ## The hierarchy -/

variable {K : Type} [Field K] [LinearOrder K] [IsStrictOrderedRing K]

omit [IsStrictOrderedRing K] in
theorem quality_of_edgeless {net : Network K} (hnet : net.Canonical) (h : net.edgeCount = 0)
    (f : Nat → Nat) : quality net.edges f = 0 := by
  have hedges : net.edges = [] := List.length_eq_zero_iff.1 (hnet.edgeCount_eq ▸ h)
  have hvolume : volume ([] : List (Edge K)) = 0 := rfl
  rw [hedges, quality, if_pos hvolume]

private theorem eq_ok_of_toOption {ε α : Type} {x : Except ε α} {a : α}
    (h : x.toOption = some a) : x = .ok a := by
  cases x with
  | error e => cases h
  | ok b => cases h; rfl

/-- A run of which something can be computed gives an answer. -/
theorem exists_answer {W α : Type} {found : Except Interrupt (Run W × Solver W)}
    {f : Hierarchy W → α} {a : α}
    (h : found.toOption.bind (fun x => x.1.result.toOption.map f) = some a) :
    ∃ run s' h, found = .ok (run, s') ∧ run.result = .ok h ∧ f h = a := by
  obtain ⟨⟨run, s'⟩, hrun, hresult⟩ := Option.bind_eq_some_iff.1 h
  obtain ⟨h, hh, ha⟩ := Option.map_eq_some_iff.1 hresult
  exact ⟨run, s', h, eq_ok_of_toOption hrun, eq_ok_of_toOption hh, ha⟩

/-- The run on two joined vertices, from a seed that tells them apart. -/
theorem cluster_pair :
    ∃ run s' h, (ofSettings ⟨1 / 10, .multilevel none, .ascending, none, false⟩ : Solver ℚ).cluster 3
        Network.pair (some #[4, 7]) = .ok (run, s') ∧
      run.result = .ok h ∧ h.levels = [⟨#[0, 0], 0, 2, 1⟩] := by
  have hlevels : ((ofSettings ⟨1 / 10, .multilevel none, .ascending, none, false⟩ :
      Solver ℚ).cluster 3 Network.pair (some #[4, 7])).toOption.bind
        (fun x => x.1.result.toOption.map (·.levels)) = some [⟨#[0, 0], 0, 2, 1⟩] := by
    rw [Weight.ofField_rat]
    cbv
  exact exists_answer hlevels

/-- The run on a triangle with a tail, which builds two levels. -/
theorem cluster_kite :
    ∃ run s' h, (ofSettings ⟨1 / 1000, .multilevel none, .ascending, none, false⟩ :
        Solver ℚ).cluster 2 Network.kite none = .ok (run, s') ∧
      run.result = .ok h ∧ h.levels = [⟨#[1, 0, 0, 1], -1 / 72, 2, 2⟩, ⟨#[0, 0], 0, 2, 1⟩] := by
  have hlevels : ((ofSettings ⟨1 / 1000, .multilevel none, .ascending, none, false⟩ :
      Solver ℚ).cluster 2 Network.kite none).toOption.bind
        (fun x => x.1.result.toOption.map (·.levels)) =
      some [⟨#[1, 0, 0, 1], -1 / 72, 2, 2⟩, ⟨#[0, 0], 0, 2, 1⟩] := by
    rw [Weight.ofField_rat]
    cbv
  exact exists_answer hlevels

/-- Every level of a hierarchy reports the modularity of its partition of the vertices. -/
theorem modularity_partitionAt {net : Network K} (hnet : net.Built) {s s' : Solver K}
    {budget : Nat} {seed : Option (Array Nat)} {run : Run K}
    (hrun : s.cluster budget net seed = .ok (run, s')) {h : Hierarchy K} (hh : run.result = .ok h)
    {k : Nat} {level : Level K} (hk : h.levels[k]? = some level) :
    ∃ labels, h.partitionAt k = .ok (some labels) ∧
      modularity net (.ofLabels labels) = .ok level.modularity := by
  obtain ⟨haccepted, hanswers⟩ := cluster_spec hrun hh
  have hcanonical := hnet.canonical
  cases hanswers with
  | edgeless hedges =>
    obtain ⟨rfl, rfl⟩ : k = 0 ∧ (⟨seed.getD (Array.range net.size), 0, 0, 0⟩ : Level K) = level := by
      cases k with
      | zero => exact ⟨rfl, Option.some.inj hk⟩
      | succ k => cases hk
    have hsize : (seed.getD (Array.range net.size)).size = net.size := by
      cases seed with
      | none => simp
      | some labels => exact checkSeed_eq_ok_iff.1 haccepted.seed_ok labels rfl
    exact ⟨_, rfl, by rw [modularity_ofLabels hcanonical hsize, quality_of_edgeless hcanonical hedges]⟩
  | @climbed base labels levels pulled coarse start ascent back =>
    have hstart := start.spec hcanonical haccepted.seed_ok
    obtain ⟨first, rest, rfl⟩ := List.exists_cons_of_ne_nil ascent.ne_nil
    obtain ⟨carried, hcompose, rfl⟩ :=
      start.pullBack (ascent.size_labels hstart.canonical) back
    obtain ⟨raw, hraw, hmodularity⟩ :
        ∃ raw, (first :: rest)[k]? = some raw ∧ raw.modularity = level.modularity := by
      cases k with
      | zero => cases hk; exact ⟨first, rfl, rfl⟩
      | succ k => exact ⟨level, hk, rfl⟩
    obtain ⟨g, hg, hfollow⟩ := ascent.follow hstart.canonical hraw
    have hlabels := hfollow labels hstart.label_lt
    rw [List.take_succ_cons, Hierarchy.follow_cons, hcompose, ok_bind] at hlabels
    have hlt : k < (({ first with labels := carried } : Level K) :: rest).length :=
      (List.getElem?_eq_some_iff.1 hk).1
    refine ⟨labels.map g, by rw [Hierarchy.partitionAt_eq hlt, hlabels]; rfl, ?_⟩
    rw [modularity_ofLabels hcanonical (by rw [Array.size_map, hstart.size_eq]), ← hmodularity, hg,
      hstart.quality_eq]
    refine congrArg Except.ok (quality_congr hcanonical.endsBelow fun u hu v hv => ?_)
    rw [← hstart.size_eq] at hu hv
    simp [Array.getD, hu, hv]

theorem modularity_partitionAt_kite :
    ∃ run s' h, (ofSettings ⟨1 / 1000, .multilevel none, .ascending, none, false⟩ :
        Solver ℚ).cluster 2 Network.kite none = .ok (run, s') ∧ run.result = .ok h ∧
      h.levels = [⟨#[1, 0, 0, 1], -1 / 72, 2, 2⟩, ⟨#[0, 0], 0, 2, 1⟩] ∧
      (∃ labels, h.partitionAt 0 = .ok (some labels) ∧
        modularity Network.kite (.ofLabels labels) = .ok (-1 / 72)) ∧
      ∃ labels, h.partitionAt 1 = .ok (some labels) ∧
        modularity Network.kite (.ofLabels labels) = .ok 0 := by
  obtain ⟨run, s', h, hrun, hh, hlevels⟩ := cluster_kite
  have hfine : h.levels[0]? = some ⟨#[1, 0, 0, 1], -1 / 72, 2, 2⟩ := by rw [hlevels]; rfl
  have hcoarse : h.levels[1]? = some ⟨#[0, 0], 0, 2, 1⟩ := by rw [hlevels]; rfl
  exact ⟨run, s', h, hrun, hh, hlevels,
    modularity_partitionAt Network.built_kite hrun hh hfine,
    modularity_partitionAt Network.built_kite hrun hh hcoarse⟩

end Solver

end Communities
