import Communities.Proofs.LocalSearch.Gain
import Communities.Proofs.LocalSearch.Shrink
import Communities.Proofs.Modularity.Score
import Communities.Proofs.Roster.Start

/-!
# Where a search comes to rest

A search ends with a sweep in which every node had its turn and none moved, so all of them were
offered the same, by the communities as they are in the end. In exact arithmetic this says that no
single node can gain more than the threshold, and that is a property of the partition alone: no
other search, in whatever order and from whatever roster of that partition, moves any node either.

* `Terrain.AtRest`: no node has an offer above the threshold. `Search.Settled.atRest`: a search ends
  at rest, `Search.run_of_atRest`: and stays there, in any arithmetic.
* `LocallyOptimal`: no node gains from joining a neighbour. `Terrain.atRest_iff`: this is rest, and
  `locallyOptimal_congr`: the names of the communities do not matter.
* `Search.run_stable`: what holds of every search that has ended by itself.
-/

namespace Communities

/-! ## Rest -/

section Rest

variable {W : Type} [Weight W]

/-- No node has an offer above the threshold. -/
def Terrain.AtRest (t : Terrain W) (r : Roster W) : Prop :=
  ∀ v < t.net.size, ∀ o, t.best r v = some o → ¬t.threshold < o.gain

namespace Search

variable {t : Terrain W} {r r' : Roster W} {vs : List Nat} {moves : List (Move W)}

/-- Where no node moves, each of them had nothing to gain, and all saw the same communities. -/
theorem Took.atRest (h : Took t r vs moves r') (hmoves : moves = []) :
    ∀ v ∈ vs, ∀ o, t.best r v = some o → ¬t.threshold < o.gain := by
  induction h with
  | nil => simp
  | cons first rest ih =>
    rw [List.append_eq_nil_iff, Option.toList_eq_nil_iff] at hmoves
    obtain ⟨rfl, hmoves⟩ := hmoves
    have hrest := ih hmoves
    rw [first.roster_eq] at hrest
    cases first with
    | stay below => exact List.forall_mem_cons.2 ⟨below, hrest⟩

theorem Settled.atRest {sweeps : List (Sweep W)} {ending : Ending}
    (hall : ∀ v < t.net.size, v ∈ vs) (h : Settled t vs r sweeps ending r')
    (hending : ending ≠ .capped) : t.AtRest r' := by
  induction h with
  | cap => exact absurd rfl hending
  | last still => exact fun v hv => still.atRest rfl v (hall v hv)
  | more _ _ _ ih => exact ih hending

/-- At rest no turn moves a node. -/
theorem Took.of_atRest (hrest : t.AtRest r) (hvs : ∀ v ∈ vs, v < t.net.size)
    (h : Took t r vs moves r') : moves = [] ∧ r' = r := by
  induction h with
  | nil => exact ⟨rfl, rfl⟩
  | cons first rest ih =>
    rw [List.forall_mem_cons] at hvs
    cases first with
    | stay => exact ih hrest hvs.2
    | go best above => exact absurd above (hrest _ hvs.1 _ best)

variable {settings : Settings W} {budget level : Nat} {net : Network W} {scratch : Scratch W}
  {s : Search W}

theorem run_atRest (hnet : net.Canonical) (hr : r.Indexes net.size) (hpos : 0 < net.degrees.total)
    (hrun : run settings budget net net.degrees r level scratch = .ok s)
    (hending : s.ending ≠ .capped) :
    Terrain.AtRest ⟨net, net.degrees, settings.threshold⟩ s.roster := by
  rcases run_spec hnet hr hrun with ⟨hnone, -⟩ | ⟨-, hsettled⟩
  · exact absurd hpos hnone
  · refine hsettled.atRest (fun v hv => ?_) hending
    rw [Array.mem_toList_iff]
    exact (settings.order.nodes_perm level net.size).mem_iff.2 (Array.mem_range.2 hv)

/-- A search from rest makes one sweep, which moves no node. -/
theorem run_of_atRest (hnet : net.Canonical) (hr : r.Indexes net.size)
    (hpos : 0 < net.degrees.total)
    (hrest : Terrain.AtRest ⟨net, net.degrees, settings.threshold⟩ r)
    (hcap : settings.maxSweeps ≠ some 0) (budget level : Nat) (scratch : Scratch W) :
    ∃ s, run settings (budget + 1) net net.degrees r level scratch = .ok s ∧
      s.ending = .settled ∧ s.sweeps = [⟨[], r.occupied⟩] ∧ s.roster = r := by
  have hready : Ready ⟨net, net.degrees, settings.threshold⟩ ⟨r, scratch.tally.blank r.capacity⟩ :=
    ⟨⟨hnet, rfl, hpos⟩, hr, Tally.clear_blank _ _⟩
  have hbelow : ∀ v ∈ settings.order.nodes level net.size, v < net.size := fun v =>
    VisitOrder.lt_of_mem_nodes
  obtain ⟨moves, w, hsweep, -, htook⟩ := sweep_eq_ok hready hbelow
  obtain ⟨rfl, hsame⟩ := htook.of_atRest hrest fun v hv => hbelow v (Array.mem_toList_iff.1 hv)
  have hsettle := settle_succ hcap hsweep budget
  rw [if_pos rfl] at hsettle
  refine ⟨_, by rw [run_of_pos hpos, hsettle]; rfl, rfl, ?_, hsame⟩
  rw [hsame]

end Search

end Rest

/-! ## Local optima -/

variable {K : Type} [Field K] [LinearOrder K]

/-- No node gains more than the threshold if it joins the community of a neighbour. -/
def LocallyOptimal (net : Network K) (threshold : K) (f : Nat → Nat) : Prop :=
  ∀ v < net.size, ∀ link ∈ net.row v, f link.target ≠ f v →
    quality net.edges (Function.update f v (f link.target)) - quality net.edges f ≤ threshold

theorem locallyOptimal_congr {net : Network K} (hnet : net.Canonical) {threshold : K}
    {f g : Nat → Nat} (hfg : ∀ u < net.size, ∀ v < net.size, f u = f v ↔ g u = g v) :
    LocallyOptimal net threshold f ↔ LocallyOptimal net threshold g := by
  have hquality : ∀ v < net.size, ∀ w < net.size,
      quality net.edges (Function.update f v (f w)) =
        quality net.edges (Function.update g v (g w)) := by
    intro v hv w hw
    refine quality_congr hnet.endsBelow fun a ha b hb => ?_
    simp only [Function.update_apply]
    split <;> split <;> simp [hfg _ ha _ hb, hfg _ hw _ hb, hfg _ ha _ hw]
  refine forall₂_congr fun v hv => forall₂_congr fun link hlink => ?_
  have htarget := hnet.target_lt_of_mem_row hv hlink
  rw [hquality v hv _ htarget, quality_congr hnet.endsBelow hfg, ne_eq, hfg _ htarget _ hv]

namespace Terrain

variable {t : Terrain K} {r : Roster K}

/-- The best offer is at least as good as any other. -/
theorem gainAt_le_best {v c : Nat} (hc : c ∈ t.net.rivals r v) :
    ∃ o, t.best r v = some o ∧ t.gainAt r v c ≤ o.gain := by
  have hoffer : (⟨c, t.gainAt r v c⟩ : Offer K) ∈ t.offers r v := List.mem_map.2 ⟨c, hc, rfl⟩
  rw [best_eq_argmax]
  cases hbest : (t.offers r v).argmax Offer.gain with
  | none =>
    rw [List.argmax_eq_none] at hbest
    rw [hbest] at hoffer
    cases hoffer
  | some o => exact ⟨o, rfl, List.le_of_mem_argmax hoffer hbest⟩

theorem atRest_iff (ht : t.Sound) (hr : r.Consistent t.degrees) :
    t.AtRest r ↔ LocallyOptimal t.net t.threshold r.communityAt := by
  have hindexes := ht.indexes hr
  constructor
  · intro hrest v hv link hlink hne
    have hlt := hindexes.communityAt_lt _ (ht.canonical.target_lt_of_mem_row hv hlink)
    obtain ⟨o, hbest, hle⟩ :=
      gainAt_le_best ((Network.mem_rivals_iff ht.canonical hindexes hv).2 ⟨hne, link, hlink, rfl⟩)
    rw [← gainAt_eq ht hr hv hlt hne.symm]
    exact hle.trans (not_lt.1 (hrest v hv o hbest))
  · intro hopt v hv o hbest
    obtain ⟨hrival, hgain⟩ := best_spec hbest
    obtain ⟨hne, link, hlink, hc⟩ := (Network.mem_rivals_iff ht.canonical hindexes hv).1 hrival
    rw [hgain, gainAt_eq ht hr hv (Network.mem_rivals.1 hrival).1 hne.symm, ← hc]
    exact not_lt.2 (hopt v hv link hlink (hc ▸ hne))

end Terrain

/-! ## The end of a search -/

/-- Every node knows its neighbours, and whichever of their communities other than its own it were
moved to, the modularity would rise by no more than the threshold. -/
def Roster.Optimal (net : Network K) (threshold : K) (r : Roster K) : Prop :=
  ∃ now, modularity net r.toPartition = .ok now ∧
    ∀ v < net.size, ∃ links own, net.links v = .ok links ∧ r.community v = .ok own ∧
      ∀ link ∈ links, ∃ c, r.community link.target = .ok c ∧
        (c ≠ own → ∃ moved,
          modularity net (.ofLabels (r.communityOf.setIfInBounds v c)) = .ok moved ∧
            moved - now ≤ threshold)

theorem LocallyOptimal.optimal {net : Network K} (hnet : net.Canonical) {threshold : K}
    {r : Roster K} (hr : r.Indexes net.size) (h : LocallyOptimal net threshold r.communityAt) :
    r.Optimal net threshold := by
  refine ⟨_, modularity_ofLabels hnet hr.size_eq, fun v hv =>
    ⟨_, _, hnet.links_eq hv, hr.community_eq hv, fun link hlink => ⟨_, hr.community_eq
      (hnet.target_lt_of_mem_row hv hlink), fun hne => ⟨_, modularity_ofLabels hnet ?_, ?_⟩⟩⟩⟩
  · rw [Array.size_setIfInBounds, hr.size_eq]
  · have hupdate : ((r.communityOf.setIfInBounds v (r.communityAt link.target)).getD · 0) =
        Function.update r.communityAt v (r.communityAt link.target) :=
      getD_setIfInBounds (hr.size_eq.symm ▸ hv) _
    rw [hupdate]
    exact h v hv link hlink hne

namespace Search

/-- Where one search has ended by itself no node can gain more than the threshold, and no other
search with that threshold moves any, whatever its order of turns, its level and its cap: neither
from the roster that the first one has left nor from a new one of the same partition. -/
theorem run_stable {net : Network K} (hnet : net.Built) (hpos : 0 < net.degrees.total)
    {r : Roster K} (hr : r.Consistent net.degrees) {settings : Settings K} {budget level : Nat}
    {scratch : Scratch K} {s : Search K}
    (hrun : run settings budget net net.degrees r level scratch = .ok s)
    (hending : s.ending = .settled) :
    s.roster.Optimal net settings.threshold ∧
      ∃ fresh, Roster.ofPartition s.roster.toPartition net.degrees = .ok fresh ∧
        ∀ start, start = s.roster ∨ start = fresh →
          ∀ settings' : Settings K, settings'.threshold = settings.threshold →
            settings'.maxSweeps ≠ some 0 → ∀ (budget' level' : Nat) (scratch' : Scratch K),
              ∃ s', run settings' (budget' + 1) net net.degrees start level' scratch' = .ok s' ∧
                s'.ending = .settled ∧ s'.sweeps.length = 1 ∧ s'.moveCount = 0 ∧
                s'.roster = start ∧ s'.roster.toPartition = s.roster.toPartition := by
  have hcanonical := hnet.canonical
  have hsound : Terrain.Sound ⟨net, net.degrees, settings.threshold⟩ := ⟨hcanonical, rfl, hpos⟩
  have hindexes := hsound.indexes hr
  have hleft : s.roster.Consistent net.degrees := run_consistent hcanonical hr hrun
  have hindexes' := hsound.indexes hleft
  have hopt : LocallyOptimal net settings.threshold s.roster.communityAt :=
    (Terrain.atRest_iff hsound hleft).1
      (run_atRest hcanonical hindexes hpos hrun (by rw [hending]; decide))
  have hfits : s.roster.toPartition.Fits net.size := Partition.fits_ofLabels hindexes'.size_eq
  obtain ⟨fresh, hfresh, hlabels, -, hconsistent, -⟩ :=
    Roster.ofPartition_eq_ok (d := net.degrees) (by simpa using hfits.toCovers)
      (hcanonical.mul_lists_lt_tableBytes hfits.count_le)
  refine ⟨hopt.optimal hcanonical hindexes', fresh, hfresh,
    fun start hstart settings' hthreshold hcap budget' level' scratch' => ?_⟩
  have hsame : start.Consistent net.degrees ∧ start.toPartition = s.roster.toPartition := by
    rcases hstart with rfl | rfl
    · exact ⟨hleft, rfl⟩
    · exact ⟨hconsistent,
        by rw [Roster.toPartition, hlabels]; exact Partition.ofLabels_ofLabels _⟩
  obtain ⟨hstart, hpartition⟩ := hsame
  have hindexes'' := hsound.indexes hstart
  have hopt' : LocallyOptimal net settings'.threshold start.communityAt := by
    rw [hthreshold]
    refine (locallyOptimal_congr hcanonical fun u hu v hv => ?_).1 hopt
    rw [← hindexes'.labelAt_toPartition_inj hu hv, ← hindexes''.labelAt_toPartition_inj hu hv,
      hpartition]
  have hrest := (Terrain.atRest_iff (t := ⟨net, net.degrees, settings'.threshold⟩)
    ⟨hcanonical, rfl, hpos⟩ hstart).2 hopt'
  obtain ⟨s', hrun', hending', hsweeps, hroster⟩ :=
    run_of_atRest hcanonical hindexes'' hpos hrest hcap budget' level' scratch'
  exact ⟨s', hrun', hending', by rw [hsweeps]; rfl, by rw [moveCount, hsweeps]; rfl, hroster,
    by rw [hroster, hpartition]⟩

theorem run_stable_pair :
    ∃ s, run ⟨1 / 10, .single, .ascending, none, false⟩ 3 Network.pair Network.pair.degrees
        (.singletons Network.pair.degrees) 0 .empty = .ok s ∧
      s.ending = .settled ∧ s.moveCount = 1 ∧ s.roster.Optimal Network.pair (1 / 10) ∧
      ∃ s', run ⟨1 / 10, .single, .shuffled 7, some 1, false⟩ 1 Network.pair Network.pair.degrees
          s.roster 4 .empty = .ok s' ∧ s'.moveCount = 0 := by
  have hpos : 0 < Network.pair.degrees.total := by decide +kernel
  have hfound : (run ⟨1 / 10, .single, .ascending, none, false⟩ 3 Network.pair Network.pair.degrees
      (.singletons Network.pair.degrees) 0 .empty).map (fun s => (s.ending, s.moveCount)) =
        .ok (.settled, 1) := by
    decide +kernel
  obtain ⟨s, hrun, hs⟩ := map_eq_ok_iff.1 hfound
  obtain ⟨hending, hmoves⟩ := Prod.mk.inj hs
  obtain ⟨hopt, fresh, -, hstill⟩ := run_stable Network.built_pair hpos
    (Roster.consistent_singletons Network.pair.degrees) hrun hending
  obtain ⟨s', hrun', -, -, hmoves', -⟩ := hstill s.roster (.inl rfl)
    ⟨1 / 10, .single, .shuffled 7, some 1, false⟩ rfl (by decide) 0 4 .empty
  exact ⟨s, hrun, hending, hmoves, hopt, s', hrun', hmoves'⟩

end Search

end Communities
