import Communities.Proofs.Network.Paths
import Communities.Proofs.Solver.TrueScore

/-!
# Communities are connected

A node only moves to a community where it has a neighbour, so no community ever holds nodes without
a path between them, and none does when levels are composed, since an edge between two communities
comes from one between their members. A seed may put any vertices together; what is found above it
is connected if the vertices of a class are regarded as joined. This holds in any arithmetic.

* `Roster.Connected`: nodes of the same community are joined by a path, with
  `Search.Turned.connected` and `Search.Found.connected`: a turn keeps it, so a search ends with it.
* `Ascent.connects`: the levels of a climb lead only such nodes together.
* `Solver.cluster_connected`: every partition of every hierarchy, with `Network.Joined` for what
  joins two vertices.
-/

namespace Communities

variable {W : Type} [Weight W]

/-! ## A search -/

omit [Weight W] in
/-- Nodes of the same community are joined by a path of the network. -/
def Roster.Connected (r : Roster W) (net : Network W) : Prop :=
  ∀ u < net.size, ∀ v < net.size, r.communityAt u = r.communityAt v → net.Path u v

theorem Roster.connected_singletons (net : Network W) :
    (Roster.singletons net.degrees).Connected net := by
  intro u hu v hv hsame
  rw [communityAt_singletons (by simpa using hu), communityAt_singletons (by simpa using hv)]
    at hsame
  exact hsame ▸ .refl

namespace Search

variable {t : Terrain W} {r r' : Roster W} {v : Nat} {vs : List Nat}

theorem Turned.connected {move : Option (Move W)} (hnet : t.net.Canonical)
    (hr : r.Indexes t.net.size) (hv : v < t.net.size) (hconnected : r.Connected t.net)
    (h : Turned t r v move r') : r'.Connected t.net := by
  cases h with
  | stay => exact hconnected
  | @go o r' best above moves =>
    obtain ⟨-, link, hlink, htarget⟩ :=
      (Network.mem_rivals_iff hnet hr hv).1 (Terrain.best_spec best).1
    have hlt := hnet.target_lt_of_mem_row hv hlink
    -- Through the neighbour there is a path to all who are in the community now.
    have hjoin : ∀ u < t.net.size, o.community = r.communityAt u → t.net.Path v u :=
      fun u hu hsame => .head (Network.adjacent_of_mem_row hnet hv hlink)
        (hconnected _ hlt u hu (htarget.trans hsame))
    intro a ha b hb hab
    rw [moves.communityAt_eq hr hv, Function.update_apply, Function.update_apply] at hab
    split at hab
    · next hav =>
      subst hav
      split at hab
      · next hba => exact hba ▸ .refl
      · exact hjoin b hb hab
    · split at hab
      · next hbv =>
        subst hbv
        exact (hjoin a ha hab.symm).symm
      · exact hconnected a ha b hb hab

theorem Took.connected {moves : List (Move W)} (hnet : t.net.Canonical)
    (hr : r.Indexes t.net.size) (hvs : ∀ v ∈ vs, v < t.net.size) (hconnected : r.Connected t.net)
    (h : Took t r vs moves r') : r'.Connected t.net := by
  induction h with
  | nil => exact hconnected
  | cons first rest ih =>
    rw [List.forall_mem_cons] at hvs
    exact ih (first.indexes hr) hvs.2 (first.connected hnet hr hvs.1 hconnected)

theorem Settled.connected {sweeps : List (Sweep W)} {ending : Ending} (hnet : t.net.Canonical)
    (hr : r.Indexes t.net.size) (hvs : ∀ v ∈ vs, v < t.net.size) (hconnected : r.Connected t.net)
    (h : Settled t vs r sweeps ending r') : r'.Connected t.net := by
  induction h with
  | cap => exact hconnected
  | last => exact hconnected
  | more took _ _ ih => exact ih (took.indexes hr) (took.connected hnet hr hvs hconnected)

namespace Found

variable {settings : Settings W} {number : Nat} {current : Network W} {s : Search W}

theorem connected (hnet : current.Canonical) (h : s.Found settings number current) :
    s.roster.Connected current := by
  obtain ⟨⟨budget, scratch, hrun⟩, -⟩ := h
  have hr := Roster.indexes_alone current
  have halone := Roster.connected_singletons current
  rcases run_spec hnet hr hrun with ⟨-, rfl⟩ | ⟨-, hsettled⟩
  · exact halone
  · exact hsettled.connected hnet hr VisitOrder.lt_of_mem_toList_nodes halone

theorem path_of_labelAt_eq (hnet : current.Canonical) (h : s.Found settings number current)
    {level : Level W} {p : Partition} (hscored : s.level current = .ok (level, p)) :
    ∀ u < current.size, ∀ v < current.size, p.labelAt u = p.labelAt v → current.Path u v := by
  obtain ⟨rfl, -⟩ := level_eq_ok_iff.1 hscored
  intro u hu v hv hsame
  exact h.connected hnet u hu v hv (((h.indexes hnet).labelAt_toPartition_inj hu hv).1 hsame)

end Found

end Search

/-! ## Through the levels -/

section Levels

variable {settings : Settings W} {number : Nat} {current : Network W} {levels : List (Level W)}
  {k : Nat}

/-- The levels up to number `k` lead only such nodes together as are joined by a path. -/
def Connects (current : Network W) (levels : List (Level W)) (k : Nat) : Prop :=
  ∃ g : Nat → Nat,
    (∀ u < current.size, ∀ v < current.size, g u = g v → current.Path u v) ∧
    ∀ fine : Array Nat, (∀ x ∈ fine, x < current.size) →
      Hierarchy.follow (levels.take (k + 1)) fine = .ok (fine.map g)

theorem Ascent.connects (hnet : current.Canonical) {coarse : Option (Network W)}
    (h : Ascent settings number current levels coarse) (hk : k < levels.length) :
    Connects current levels k := by
  refine Ascent.exists_follow
    (Q := fun current _ g => ∀ u < current.size, ∀ v < current.size, g u = g v → current.Path u v)
    (fun hnet found scored => found.path_of_labelAt_eq hnet scored)
    (fun hnet found scored drawn hlt hpath u hu v hv hsame => ?_) hnet h
    (List.getElem?_eq_getElem hk)
  -- A path between two communities of a level is one between any of their members.
  exact Network.path_of_path_condense hnet (found.level_fits hnet scored).2 drawn (fun _ _ => id)
    (found.path_of_labelAt_eq hnet scored) hu hv (hpath _ (hlt u hu) _ (hlt v hv) hsame)

end Levels

/-! ## From the vertices -/

omit [Weight W] in
/-- What joins two vertices of a network: an edge or, where there is a seed, the label that both
have in it. -/
def Network.Joined (net : Network W) : Option (Array Nat) → Nat → Nat → Prop
  | none => net.Adjacent
  | some labels => fun u v => net.Adjacent u v ∨ ∃ c, labels[u]? = some c ∧ labels[v]? = some c

omit [Weight W] in
theorem Network.Adjacent.joined {net : Network W} {seed : Option (Array Nat)} {u v : Nat}
    (h : net.Adjacent u v) : net.Joined seed u v := by
  cases seed with
  | none => exact h
  | some labels => exact .inl h

omit [Weight W] in
/-- A vertex that nothing joins to another one is joined to itself only. -/
theorem Network.eq_of_joined {net : Network W} {seed : Option (Array Nat)} {u v : Nat}
    (halone : ∀ x, net.Joined seed u x → x = u)
    (h : Relation.ReflTransGen (net.Joined seed) u v) : v = u := by
  induction h with
  | refl => rfl
  | tail _ hstep ih =>
    rw [ih] at hstep
    exact halone _ hstep

namespace Solver

variable {net base : Network W} {seed : Option (Array Nat)} {labels : Array Nat} {u v : Nat}

theorem Start.joined_of_path (hnet : net.Canonical)
    (hseed : checkSeed (W := W) net.size seed = .ok ()) (h : Start net seed base labels)
    (hu : u < net.size) (hv : v < net.size)
    (hpath : base.Path (labels.getD u 0) (labels.getD v 0)) :
    Relation.ReflTransGen (net.Joined seed) u v := by
  cases h with
  | vertices =>
    have hpath : net.Path u v := by simpa [hu, hv] using hpath
    exact hpath
  | @seeded given base drawn =>
    have hsize := checkSeed_eq_ok_iff.1 hseed given rfl
    refine Network.path_of_path_condense hnet (Partition.fits_ofLabels hsize) drawn
      (fun _ _ => Network.Adjacent.joined) (fun a ha b hb hsame => .single (.inr ?_)) hu hv hpath
    rw [← hsize] at ha hb
    rw [Partition.labelAt_ofLabels_inj ha hb] at hsame
    exact ⟨given[a], by simp [ha], by simpa [ha, hb] using hsame.symm⟩

/-- What the partition at a level says of the vertices that it puts together. -/
theorem Start.exists_partitionAt {settings : Settings W} {levels pulled : List (Level W)}
    {coarse : Option (Network W)} (hnet : net.Canonical)
    (hseed : checkSeed (W := W) net.size seed = .ok ()) (h : Start net seed base labels)
    (ascent : Ascent settings 0 base levels coarse)
    (hback : Communities.pullBack (seed.map Partition.ofLabels) levels = .ok pulled) {k : Nat}
    (hk : k < pulled.length) :
    ∃ found, Hierarchy.partitionAt ⟨pulled, coarse⟩ k = .ok (some found) ∧ found.size = net.size ∧
      ∀ c u v : Nat, found[u]? = some c → found[v]? = some c →
        Relation.ReflTransGen (net.Joined seed) u v := by
  obtain ⟨hbase, hsize, hmem⟩ := h.mem_labels hnet hseed
  obtain ⟨g, hpath, hfollow⟩ := ascent.connects hbase (length_pullBack hback ▸ hk)
  have hlabels := hfollow labels fun x hx => (hmem x).1 hx
  refine ⟨labels.map g, h.partitionAt_eq hnet hseed ascent hback hk hlabels,
    by rw [Array.size_map, hsize], fun c u v hu hv => ?_⟩
  rw [Array.getElem?_map, Option.map_eq_some_iff] at hu hv
  obtain ⟨a, ha, hac⟩ := hu
  obtain ⟨b, hb, hbc⟩ := hv
  have hat : ∀ {v a : Nat}, labels[v]? = some a →
      v < net.size ∧ a < base.size ∧ labels.getD v 0 = a := fun {v a} hva => by
    obtain ⟨hlt, -⟩ := Array.getElem?_eq_some_iff.1 hva
    exact ⟨hsize ▸ hlt, (hmem a).1 (Array.mem_of_getElem? hva),
      by rw [Array.getD_eq_getD_getElem?, hva]; rfl⟩
  obtain ⟨hu, ha, hau⟩ := hat ha
  obtain ⟨hv, hb, hbv⟩ := hat hb
  exact h.joined_of_path hnet hseed hu hv
    (by rw [hau, hbv]; exact hpath a ha b hb (hac.trans hbc.symm))

/-- Every level of an answer has a partition, and it only puts vertices together that are joined. -/
theorem Answers.exists_partitionAt {settings : Settings W} {h : Hierarchy W} (hnet : net.Canonical)
    (hseed : checkSeed (W := W) net.size seed = .ok ()) (hanswers : Answers settings net seed h)
    {k : Nat} (hk : k < h.levels.length) :
    ∃ labels, h.partitionAt k = .ok (some labels) ∧ labels.size = net.size ∧
      ∀ c u v : Nat, labels[u]? = some c → labels[v]? = some c →
        Relation.ReflTransGen (net.Joined seed) u v := by
  cases hanswers with
  | edgeless =>
    rw [List.length_singleton, Nat.lt_one_iff] at hk
    subst hk
    refine ⟨_, rfl, ?_⟩
    cases seed with
    | none =>
      have hself : ∀ {c x : Nat}, (Array.range net.size)[x]? = some c → x = c := fun hx => by
        obtain ⟨hlt, hx⟩ := Array.getElem?_eq_some_iff.1 hx
        rwa [Array.getElem_range] at hx
      exact ⟨Array.size_range, fun c u v hu hv => hself hu ▸ hself hv ▸ .refl⟩
    | some given =>
      exact ⟨checkSeed_eq_ok_iff.1 hseed given rfl, fun c u v hu hv => .single (.inr ⟨c, hu, hv⟩)⟩
  | climbed start ascent back => exact start.exists_partitionAt hnet hseed ascent back hk

/-- Vertices that a run puts together at any level are joined through edges, whatever their weight,
and classes of the seed. So a vertex that nothing joins to another one stays alone at every
level. -/
theorem cluster_connected (hnet : net.Built) {s s' : Solver W} {budget : Nat} {run : Run W}
    (hrun : s.cluster budget net seed = .ok (run, s')) {h : Hierarchy W} (hh : run.result = .ok h)
    {k : Nat} (hk : k < h.levels.length) :
    ∃ labels, h.partitionAt k = .ok (some labels) ∧ labels.size = net.size ∧
      (∀ c u v : Nat, labels[u]? = some c → labels[v]? = some c →
        Relation.ReflTransGen (net.Joined seed) u v) ∧
      ∀ u : Nat, (∀ x, net.Joined seed u x → x = u) →
        ∀ c v : Nat, labels[u]? = some c → labels[v]? = some c → v = u := by
  obtain ⟨haccepted, hanswers⟩ := cluster_spec hrun hh
  obtain ⟨labels, hlabels, hsize, hjoined⟩ :=
    hanswers.exists_partitionAt hnet.canonical haccepted.seed_ok hk
  exact ⟨labels, hlabels, hsize, hjoined, fun u halone c v hu hv =>
    Network.eq_of_joined halone (hjoined c u v hu hv)⟩

theorem cluster_connected_kite :
    Network.kite.Built ∧
    ∃ run s' h, (ofSettings ⟨1 / 1000, .multilevel none, .ascending, none, false⟩ :
          Solver ℚ).cluster 2 Network.kite none = .ok (run, s') ∧
      run.result = .ok h ∧ h.levels.length = 2 ∧
      ∀ k < 2, ∃ labels, h.partitionAt k = .ok (some labels) ∧ labels.size = 4 ∧
        ∀ c u v : Nat, labels[u]? = some c → labels[v]? = some c →
          Relation.ReflTransGen (Network.kite.Joined none) u v := by
  obtain ⟨run, s', h, hrun, hh, hlevels⟩ := cluster_kite
  have hlength : h.levels.length = 2 := by rw [hlevels]; rfl
  refine ⟨Network.built_kite, run, s', h, hrun, hh, hlength, fun k hk => ?_⟩
  obtain ⟨labels, hlabels, hsize, hjoined, -⟩ :=
    cluster_connected Network.built_kite hrun hh (hlength.symm ▸ hk)
  exact ⟨labels, hlabels, hsize, hjoined⟩

end Solver

end Communities
