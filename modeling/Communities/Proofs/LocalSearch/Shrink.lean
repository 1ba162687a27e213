import Communities.Proofs.LocalSearch.Sweeps
import Communities.Proofs.Roster.Occupied

/-!
# Communities die out

A node only moves to where a neighbour is, so no move goes to a community without members: in the
course of a search communities can lose their last member, but none is founded again. This holds in
any arithmetic.

* `Search.Settled.usedLabels_subset`: the communities with members become fewer.
* `Search.Settled.usedLabels_ssubset`: the first node that moves, if all are alone, leaves none
  behind. `Search.count_lt_of_run`: so a search that moves any node draws the network together.
-/

namespace Communities

namespace Search

variable {W : Type} [Weight W] {t : Terrain W} {r r' : Roster W} {v : Nat} {vs : List Nat}

/-! ## One turn -/

theorem Turned.usedLabels_subset {move : Option (Move W)} (hnet : t.net.Canonical)
    (hr : r.Indexes t.net.size) (hv : v < t.net.size) (h : Turned t r v move r') :
    usedLabels t.net.size r'.communityAt ⊆ usedLabels t.net.size r.communityAt := by
  cases h with
  | stay => exact Finset.Subset.refl _
  | go best above moves =>
    obtain ⟨-, link, hlink, hc⟩ := (Network.mem_rivals_iff hnet hr hv).1 (Terrain.best_spec best).1
    have hlt := hnet.target_lt_of_mem_row hv hlink
    rw [moves.communityAt_eq hr hv, usedLabels_eq_insert hv,
      otherLabels_update, Function.update_self]
    refine Finset.insert_subset (mem_usedLabels.2 ⟨_, hlt, hc⟩) ?_
    rw [usedLabels_eq_insert hv]
    exact Finset.subset_insert _ _

/-- A node that was alone leaves a community without members. -/
theorem Turned.usedLabels_ssubset {move : Move W} (hnet : t.net.Canonical)
    (hr : r.Indexes t.net.size) (hv : v < t.net.size)
    (halone : ∀ u < t.net.size, r.communityAt u = r.communityAt v → u = v)
    (h : Turned t r v (some move) r') :
    usedLabels t.net.size r'.communityAt ⊂ usedLabels t.net.size r.communityAt := by
  refine Finset.ssubset_iff_of_subset (h.usedLabels_subset hnet hr hv) |>.2
    ⟨r.communityAt v, mem_usedLabels.2 ⟨v, hv, rfl⟩, fun hleft => ?_⟩
  obtain ⟨u, hu, hcu⟩ := mem_usedLabels.1 hleft
  cases h with
  | go best above moves =>
    obtain ⟨-, hne, -⟩ := Network.mem_rivals.1 (Terrain.best_spec best).1
    rw [moves.communityAt_eq hr hv] at hcu
    by_cases huv : u = v
    · rw [huv, Function.update_self] at hcu
      exact hne hcu
    · rw [Function.update_of_ne huv] at hcu
      exact huv (halone u hu hcu)

/-! ## A search -/

section Turns

variable {moves : List (Move W)}

theorem Took.usedLabels_subset (hnet : t.net.Canonical) (hr : r.Indexes t.net.size)
    (hvs : ∀ v ∈ vs, v < t.net.size) (h : Took t r vs moves r') :
    usedLabels t.net.size r'.communityAt ⊆ usedLabels t.net.size r.communityAt := by
  induction h with
  | nil => exact Finset.Subset.refl _
  | cons first rest ih =>
    rw [List.forall_mem_cons] at hvs
    exact (ih (first.indexes hr) hvs.2).trans (first.usedLabels_subset hnet hr hvs.1)

/-- Up to the first move nothing changes, so where all nodes are alone the first to move is. -/
theorem Took.usedLabels_ssubset (hnet : t.net.Canonical) (hr : r.Indexes t.net.size)
    (hvs : ∀ v ∈ vs, v < t.net.size)
    (halone : ∀ v < t.net.size, ∀ u < t.net.size, r.communityAt u = r.communityAt v → u = v)
    (h : Took t r vs moves r') (hmoved : moves ≠ []) :
    usedLabels t.net.size r'.communityAt ⊂ usedLabels t.net.size r.communityAt := by
  induction h with
  | nil => exact absurd rfl hmoved
  | @cons r r' r'' v vs move moves first rest ih =>
    rw [List.forall_mem_cons] at hvs
    cases move with
    | none =>
      have hsame : r' = r := first.roster_eq
      rw [hsame] at ih
      exact ih hr hvs.2 halone hmoved
    | some move =>
      exact (rest.usedLabels_subset hnet (first.indexes hr) hvs.2).trans_ssubset
        (first.usedLabels_ssubset hnet hr hvs.1 (halone v hvs.1))

variable {sweeps : List (Sweep W)} {ending : Ending}

theorem Settled.usedLabels_subset (hnet : t.net.Canonical) (hr : r.Indexes t.net.size)
    (hvs : ∀ v ∈ vs, v < t.net.size) (h : Settled t vs r sweeps ending r') :
    usedLabels t.net.size r'.communityAt ⊆ usedLabels t.net.size r.communityAt := by
  induction h with
  | cap => exact Finset.Subset.refl _
  | last => exact Finset.Subset.refl _
  | more took _ _ ih =>
    exact (ih (took.indexes hr)).trans (took.usedLabels_subset hnet hr hvs)

theorem Settled.usedLabels_ssubset (hnet : t.net.Canonical) (hr : r.Indexes t.net.size)
    (hvs : ∀ v ∈ vs, v < t.net.size)
    (halone : ∀ v < t.net.size, ∀ u < t.net.size, r.communityAt u = r.communityAt v → u = v)
    (h : Settled t vs r sweeps ending r') (hmoved : sweeps.flatMap (·.moves) ≠ []) :
    usedLabels t.net.size r'.communityAt ⊂ usedLabels t.net.size r.communityAt := by
  cases h with
  | cap => exact absurd rfl hmoved
  | last => exact absurd rfl hmoved
  | more took moved later =>
    exact (later.usedLabels_subset hnet (took.indexes hr) hvs).trans_ssubset
      (took.usedLabels_ssubset hnet hr hvs halone moved)

end Turns

/-! ## The search of a level -/

variable {settings : Settings W} {budget level : Nat} {net : Network W} {scratch : Scratch W}
  {s : Search W}

/-- A search from single nodes that moves any leaves fewer communities than nodes. -/
theorem count_lt_of_run (hnet : net.Canonical)
    (hrun : run settings budget net net.degrees (.singletons net.degrees) level scratch = .ok s)
    (hmoved : s.moveCount ≠ 0) : s.roster.toPartition.count < net.size := by
  have hr := Roster.indexes_alone net
  have halone : ∀ v < net.size, (Roster.singletons net.degrees).communityAt v = v := fun v hv =>
    Roster.communityAt_singletons (by simpa using hv)
  rcases run_spec hnet hr hrun with ⟨-, rfl⟩ | ⟨-, hsettled⟩
  · exact absurd rfl hmoved
  have hsub := hsettled.usedLabels_ssubset hnet hr
    VisitOrder.lt_of_mem_toList_nodes
    (fun v hv u hu hsame => by rwa [halone u hu, halone v hv] at hsame)
    (fun hnone => hmoved (by simp [moveCount, hnone]))
  have hcount := Partition.count_ofLabels (hsettled.indexes hr).size_eq
  calc s.roster.toPartition.count = (usedLabels net.size s.roster.communityAt).card := hcount
    _ < (usedLabels net.size (Roster.singletons net.degrees).communityAt).card :=
      Finset.card_lt_card hsub
    _ ≤ net.size := card_usedLabels_le _ _

end Search

end Communities
