import Communities.Proofs.Network.Aggregate
import Communities.Proofs.Solver.TrueScore

/-!
# Where the levels lead

The levels of a run draw the vertices together step by step, each step through the network of the
one before. In exact arithmetic the steps do not show: the network that the run ends with is the one
that its final partition draws together from the vertices at once, and its single nodes have the
modularity that the run reports.

* `Leads`: what a chain of levels makes of its first network; `Ascent.leads`: every climb does that.
* `Solver.EndsAt`: what a hierarchy says of the network it ends with; `Solver.Start.endsAt`: the
  hierarchies of the solver do say so.
-/

namespace Communities

variable {K : Type} [Field K] [LinearOrder K]

/-! ## Through the levels -/

/-- The levels lead the nodes of `current` to those of `top` by `f`, which is what they draw
together, and the last of them reports the modularity of its single nodes. -/
structure Leads (current : Network K) (levels : List (Level K)) (top : Network K) (f : Nat → Nat) :
    Prop where
  /-- The nodes are drawn together. -/
  aggregates : current.Aggregates f top
  /-- None is left empty. -/
  onto : ∀ c < top.size, ∃ v < current.size, f v = c
  /-- So say the labels. -/
  follow_eq : ∀ fine : Array Nat, (∀ x ∈ fine, x < current.size) →
    Hierarchy.follow levels fine = .ok (fine.map f)
  /-- The modularity is that of the last level. -/
  modularity_eq : (levels.map (·.modularity)).getLastD (aloneQuality current) = aloneQuality top

/-- Labels that use all nodes use all nodes at the end. -/
theorem Leads.mem_map {current top : Network K} {levels : List (Level K)} {f : Nat → Nat}
    (h : Leads current levels top f) {labels : Array Nat}
    (hlabels : ∀ x, x ∈ labels ↔ x < current.size) : ∀ x, x ∈ labels.map f ↔ x < top.size := by
  intro x
  rw [Array.mem_map]
  constructor
  · rintro ⟨y, hy, rfl⟩
    exact h.aggregates.lt_size y ((hlabels y).1 hy)
  · intro hx
    obtain ⟨y, hy, hyx⟩ := h.onto x hx
    exact ⟨y, (hlabels y).2 hy, hyx⟩

section Ascent

variable {settings : Settings K} {number : Nat} {current : Network K}

theorem Leads.refl (hnet : current.Canonical) : Leads current [] current fun v => v where
  aggregates := .refl hnet
  onto c hc := ⟨c, hc, rfl⟩
  follow_eq fine _ := congrArg Except.ok (Array.map_id fine).symm
  modularity_eq := rfl

variable [IsStrictOrderedRing K] {level : Level K} {p : Partition} {s : Search K}

/-- A level that draws its communities together. -/
theorem Search.Found.leads (hnet : current.Canonical) (hfound : s.Found settings number current)
    (hscored : s.level current = .ok (level, p)) {reduced top : Network K}
    (hdrawn : current.condense p = .ok reduced) {levels : List (Level K)} {f : Nat → Nat}
    (h : Leads reduced levels top f) :
    Leads current (level :: levels) top fun v => f (p.labelAt v) := by
  have hlevel := hfound.scored hnet hscored
  obtain ⟨haggregates, hsize⟩ := Network.aggregates_of_condense hnet hlevel.fits hdrawn
  obtain ⟨rfl, -⟩ := Search.level_eq_ok_iff.1 hscored
  refine ⟨haggregates.trans h.aggregates, fun c hc => ?_,
    fun _ => hfound.follow_cons hnet hscored hdrawn h.follow_eq, ?_⟩
  · obtain ⟨a, ha, rfl⟩ := h.onto c hc
    obtain ⟨v, hv, hva⟩ := Partition.exists_labelAt_ofLabels (hsize ▸ ha)
    exact ⟨v, hlevel.fits.size_eq ▸ by simpa [Roster.toPartition, Partition.ofLabels] using hv,
      congrArg f hva⟩
  · rw [List.map_cons, List.getLastD_cons, ← (hlevel.drawn hnet hdrawn).2.2.2, h.modularity_eq]

/-- A level that moves no node. -/
theorem Search.Found.leads_of_still (hnet : current.Canonical)
    (hfound : s.Found settings number current) (hscored : s.level current = .ok (level, p))
    (hstill : s.moveCount = 0) : Leads current [level] current fun v => v := by
  have hlevel := hfound.scored hnet hscored
  have hlabelAt : ∀ v < current.size, p.labelAt v = v := fun v hv => by
    obtain ⟨rfl, -⟩ := Search.level_eq_ok_iff.1 hscored
    rw [hfound.roster_eq hnet hstill, Roster.toPartition_singletons]
    exact Partition.labelAt_singletons (by simpa using hv)
  refine ⟨.refl hnet, fun c hc => ⟨c, hc, rfl⟩, fun fine hfine => ?_, ?_⟩
  · rw [hfound.follow_level hnet hscored hfine]
    exact congrArg Except.ok (Array.map_congr_left fun x hx => hlabelAt x (hfine x hx))
  · exact hlevel.eq_of_still (Search.moves_level hscored ▸ hstill)

theorem Ascent.leads (hnet : current.Canonical) {levels : List (Level K)}
    {coarse : Option (Network K)} (h : Ascent settings number current levels coarse) :
    ∃ f, Leads current levels (coarse.getD current) f := by
  induction h with
  | rest => exact ⟨_, .refl hnet⟩
  | still found still scored => exact ⟨_, found.leads_of_still hnet scored still⟩
  | top found moved scored drawn =>
    have hcanonical := ((found.scored hnet scored).drawn hnet drawn).1
    exact ⟨_, found.leads hnet scored drawn (.refl hcanonical)⟩
  | @step number current reduced s level p levels coarse found moved scored drawn _ _ above ih =>
    obtain ⟨f, hf⟩ := ih ((found.scored hnet scored).drawn hnet drawn).1
    obtain ⟨top, rfl⟩ := above.exists_coarse (Nat.succ_pos _)
    exact ⟨_, found.leads hnet scored drawn hf⟩

end Ascent

/-! ## From the vertices -/

namespace Solver

variable {net base top : Network K} {seed : Option (Array Nat)} {labels : Array Nat}
  {levels pulled : List (Level K)} {coarse : Option (Network K)}

/-- The vertices are drawn together into the nodes that a run starts from. -/
theorem Start.aggregates (hnet : net.Canonical) (hseed : checkSeed (W := K) net.size seed = .ok ())
    (h : Start net seed base labels) : net.Aggregates (labels.getD · 0) base := by
  cases h with
  | vertices => exact (Network.Aggregates.refl hnet).congr hnet fun v hv => by simp [hv]
  | @seeded given base drawn =>
    exact (Network.aggregates_of_condense hnet
      (Partition.fits_ofLabels (checkSeed_eq_ok_iff.1 hseed given rfl)) drawn).1

/-- Levels above the start draw the vertices together at once into the network that they lead to. -/
theorem Start.condense_eq (hnet : net.Canonical) (hseed : checkSeed (W := K) net.size seed = .ok ())
    (h : Start net seed base labels) {f : Nat → Nat} (hleads : Leads base levels top f) :
    (labels.map f).size = net.size ∧ (∀ x, x ∈ labels.map f ↔ x < top.size) ∧
      net.condense (.ofLabels (labels.map f)) = .ok top := by
  obtain ⟨-, hlabels, hmem⟩ := h.mem_labels hnet hseed
  have hdense := hleads.mem_map hmem
  have hsize : (labels.map f).size = net.size := by rw [Array.size_map, hlabels]
  refine ⟨hsize, hdense, ?_⟩
  have hfits := Partition.fits_ofLabels hsize
  have haggregates := (h.aggregates hnet hseed).trans hleads.aggregates
  rw [Partition.ofLabels_of_dense hdense] at hfits ⊢
  refine Network.condense_of_aggregates hnet hfits (haggregates.congr hnet fun v hv => ?_) rfl
  have hv' : v < labels.size := hlabels.symm ▸ hv
  simp [Partition.labelAt, hv']

/-- The final partition of a hierarchy over the vertices of `net` draws them together into `top`. -/
structure EndsAt (net : Network K) (h : Hierarchy K) (final : Array Nat) (top : Network K) :
    Prop where
  /-- The labels are those of the last level. -/
  partition_eq : h.finalPartition = .ok final
  /-- There is one for each vertex. -/
  size_eq : final.size = net.size
  /-- They are the nodes of the network. -/
  mem_labels : ∀ x, x ∈ final ↔ x < top.size
  /-- Condensing the vertices gives the network in one step. -/
  condense_eq : net.condense (.ofLabels final) = .ok top
  /-- The modularity is that of its single nodes. -/
  modularity_eq : h.modularity = aloneQuality top

/-- So does the hierarchy of every climb. -/
theorem Start.endsAt [IsStrictOrderedRing K] {settings : Settings K} (hnet : net.Canonical)
    (hseed : checkSeed (W := K) net.size seed = .ok ()) (h : Start net seed base labels)
    (ascent : Ascent settings 0 base levels coarse)
    (hback : Communities.pullBack (seed.map Partition.ofLabels) levels = .ok pulled) :
    ∃ final, EndsAt net ⟨pulled, coarse⟩ final (coarse.getD base) := by
  obtain ⟨hbase, -, hmem⟩ := h.mem_labels hnet hseed
  obtain ⟨f, hleads⟩ := ascent.leads hbase
  obtain ⟨first, rest, rfl⟩ := List.exists_cons_of_ne_nil ascent.ne_nil
  obtain ⟨back, hcompose, rfl⟩ := h.pullBack (ascent.size_labels hbase) hback
  have hfollow := hleads.follow_eq labels fun x hx => (hmem x).1 hx
  rw [Hierarchy.follow_cons, hcompose, ok_bind] at hfollow
  obtain ⟨hsize, hdense, hcondense⟩ := h.condense_eq hnet hseed hleads
  refine ⟨labels.map f, Hierarchy.finalPartition_eq.trans hfollow, hsize, hdense, hcondense, ?_⟩
  rw [Hierarchy.modularity_eq_getLastD (List.cons_ne_nil _ _) (aloneQuality base),
    ← hleads.modularity_eq]
  rfl

end Solver

end Communities
