import Communities.Proofs.Modularity.Score
import Communities.Proofs.Solver.Carry

/-!
# The solver meets no fault

On a network with the form that every network has, no run of the solver meets a fault, whatever its
settings and its seed: an index past the end of a table, a gain without positive weight, a node that
is not where it is said to be, a hierarchy of no levels. All it can do instead of an answer or a
rejection is to spend its budget of sweeps. This holds in any arithmetic.

* `Faultless`: a computation that meets no fault, with `Faultless.bind` for one after the other.
* `Search.run_faultless`, `climb_faultless` and `Solver.cluster_faultless`: the search of a level,
  all levels and whole runs.
-/

namespace Communities

/-! ## Computations without faults -/

/-- A computation that meets no fault. -/
structure Faultless {α : Type} (x : Except Interrupt α) : Prop where
  /-- It does not end with one. -/
  ne_fault : ∀ fault, x ≠ .error (.fault fault)

namespace Faultless

variable {α β : Type} {x : Except Interrupt α}

theorem ok (a : α) : Faultless (.ok a) := ⟨fun _ h => nomatch h⟩

theorem bind {f : α → Except Interrupt β} (hx : Faultless x)
    (hf : ∀ a, x = .ok a → Faultless (f a)) : Faultless (x >>= f) := by
  cases x with
  | error e =>
    refine ⟨fun fault h => ?_⟩
    cases h
    exact hx.ne_fault fault rfl
  | ok a => exact hf a rfl

theorem map {f : α → β} (hx : Faultless x) : Faultless (x.map f) :=
  ⟨fun fault h => hx.ne_fault fault (map_eq_error_iff.1 h)⟩

end Faultless

variable {W : Type} [Weight W]

/-! ## One level -/

namespace Search

variable {net : Network W}

theorem run_faultless (hnet : net.Canonical) {roster : Roster W} (hr : roster.Indexes net.size)
    (settings : Settings W) (budget level : Nat) (scratch : Scratch W) :
    Faultless (run settings budget net net.degrees roster level scratch) := by
  by_cases hpos : 0 < net.degrees.total
  · have hready : Ready ⟨net, net.degrees, settings.threshold⟩
        ⟨roster, scratch.tally.blank roster.capacity⟩ :=
      ⟨⟨hnet, rfl, hpos⟩, hr, Tally.clear_blank _ _⟩
    rw [run_of_pos hpos]
    exact Faultless.map ⟨settle_ne_fault (fun v => VisitOrder.lt_of_mem_nodes) hready⟩
  · rw [run_of_not_pos hpos]
    exact .ok _

/-- A search can be scored whatever its roster has come to. -/
theorem exists_level (hnet : net.Canonical) {s : Search W} (hr : s.roster.Indexes net.size) :
    ∃ level, s.level net = .ok (level, s.roster.toPartition) := by
  have hfits : s.roster.toPartition.Fits net.size := Partition.fits_ofLabels hr.size_eq
  obtain ⟨q, hq⟩ := exists_modularityByBlocks hnet hfits.toCovers
    (hnet.mul_lt_tableBytes hfits.count_le)
  exact ⟨_, level_eq_ok_iff.2 ⟨rfl, q, hq, rfl⟩⟩

end Search

/-! ## All levels -/

theorem climb_faultless {current : Network W} (hnet : current.Canonical) (settings : Settings W)
    (budget number : Nat) (scratch : Scratch W) :
    Faultless (climb settings budget number current scratch) := by
  induction hn : current.size using Nat.strong_induction_on generalizing number current scratch with
  | _ n ih =>
  subst hn
  have halone := Roster.indexes_alone current
  rw [climb]
  refine (Search.run_faultless hnet halone ..).bind fun s hrun => ?_
  have hr := Search.run_indexes hnet halone hrun
  obtain ⟨level, hlevel⟩ := Search.exists_level hnet hr
  obtain ⟨reduced, hdrawn, hcanonical, -⟩ :=
    hnet.condense_eq_ok_of_fits (Partition.fits_ofLabels hr.size_eq)
  dsimp only
  split
  · exact .ok _
  split
  · exact .ok _
  rw [hlevel, liftM_ok, ok_bind]
  dsimp only
  split
  · exact .ok _
  rw [Roster.toPartition, hdrawn, liftM_ok, ok_bind]
  split
  · exact .ok _
  split
  · next hsmaller => exact (ih _ hsmaller hcanonical _ _ rfl).bind fun _ _ => .ok _
  · exact .ok _

namespace Solver

/-! ## Whole runs -/

variable {s : Solver W} {net base : Network W} {seed : Option (Array Nat)} {labels : Array Nat}

theorem Start.runFrom_faultless (hnet : net.Canonical)
    (hseed : checkSeed (W := W) net.size seed = .ok ()) (h : Start net seed base labels)
    (budget : Nat) : Faultless (s.runFrom budget (seed.map Partition.ofLabels) base) := by
  obtain ⟨hbase, -, -⟩ := h.mem_labels hnet hseed
  rw [runFrom]
  refine (climb_faultless hbase ..).bind fun c hclimb => ?_
  cases hresult : c.result with
  | error e => exact .ok _
  | ok found =>
    obtain ⟨levels, coarse⟩ := found
    obtain ⟨first, rest, hback⟩ := h.exists_pullBack hnet hseed (climb_spec hclimb hresult)
    simp only [hback, liftM_ok, ok_bind]
    exact .ok _

theorem cluster_faultless (hnet : net.Canonical) (s : Solver W) (budget : Nat)
    (seed : Option (Array Nat)) : Faultless (s.cluster budget net seed) := by
  rw [cluster]
  split
  · exact .ok _
  next hchecks =>
  have hseed := (accepted_iff.2 hchecks).seed_ok
  by_cases hedges : net.edgeCount = 0
  · rw [search_edgeless hedges]
    exact .ok _
  · obtain ⟨base, labels, hstart⟩ := exists_start_of_checkSeed hnet hseed
    rw [hstart.search_eq hedges]
    exact hstart.runFrom_faultless hnet hseed budget

end Solver

end Communities
