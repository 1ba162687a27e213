import Communities.Proofs.Roster.Start

/-!
# Histories of a roster

Whatever moves a roster has behind it, also ones that no search makes (back and forth, to a
community without members, or to where the node is), all of its parts tell the same partition: the
one that the communities of the nodes are. In exact arithmetic there is nothing else to tell, so the roster
does not remember how it came about.

* `Roster.history`: moves made one after the other. `Roster.InStep`: what every roster of a history
  is; `Roster.exists_step` and `Roster.Step.inStep`: one move, `Roster.exists_history`: all.
* `Roster.Consistent.eq_of_communityOf`: two rosters that tell the same partition are the same.
* `Roster.history_faithful`: what a history leaves behind.
-/

namespace Communities

namespace Roster

variable {W : Type} [Weight W] {d : Degrees W} {r r' start : Roster W} {v c : Nat}

/-- Moves made one after the other, each of a node to a community: the node leaves the community
that it is in, with its degree. -/
def history (d : Degrees W) (r : Roster W) (moves : List (Nat × Nat)) : Except Fault (Roster W) :=
  moves.foldlM
    (fun r (node, target) => do r.move node (← r.community node) target (← d.degree node)) r

/-! ## One move -/

/-- All parts of a roster of the nodes of `d` tell the same partition. -/
structure InStep (d : Degrees W) (r : Roster W) : Prop where
  /-- Both directions do. -/
  indexes : r.Indexes d.byNode.size
  /-- The count is right. -/
  counts : r.Counts d.byNode.size
  /-- Communities without members have the sum zero. -/
  vacantZero : r.VacantZero

theorem Starts.inStep (h : Starts d r) : InStep d r := ⟨h.indexes, h.counts, h.vacantZero⟩

theorem move_self {n : Nat} (h : r.Indexes n) (hv : v < n) (degree : W) :
    r.move v (r.communityAt v) (r.communityAt v) degree = .ok r := by
  have hfetch : fetch r.communityOf v = .ok (r.communityAt v) := h.community_eq hv
  rw [move, hfetch, ok_bind, if_neg (by simp), if_pos rfl]
  rfl

/-- What a move of node `v` to community `c` can do. -/
inductive Step (d : Degrees W) (r : Roster W) (v c : Nat) : Roster W → Prop
  /-- The node is there already. -/
  | stay (there : r.communityAt v = c) : Step d r v c r
  /-- The node goes there. -/
  | go {r' : Roster W} (elsewhere : r.communityAt v ≠ c)
      (moves : r.Moves d.byNode.size v c (d.degreeAt v) r') : Step d r v c r'

theorem exists_step (h : r.Indexes d.byNode.size) (hv : v < d.byNode.size) (hc : c < r.capacity) :
    ∃ r', (do r.move v (← r.community v) c (← d.degree v)) = .ok r' ∧ Step d r v c r' := by
  rw [h.community_eq hv, ok_bind, Degrees.degree_eq_ok hv, ok_bind]
  by_cases hthere : r.communityAt v = c
  · subst hthere
    exact ⟨r, move_self h hv _, .stay rfl⟩
  · obtain ⟨r', hmove, hmoves⟩ := move_eq_ok h hv hc hthere (d.degreeAt v)
    exact ⟨r', hmove, .go hthere hmoves⟩

theorem Step.capacity_eq (h : Step d r v c r') : r'.capacity = r.capacity := by
  cases h with
  | stay => rfl
  | go _ moves => exact moves.capacity_eq

theorem Step.communityAt_eq (hr : r.Indexes d.byNode.size) (hv : v < d.byNode.size)
    (h : Step d r v c r') : r'.communityAt = Function.update r.communityAt v c := by
  cases h with
  | stay there => rw [← there, Function.update_eq_self]
  | go _ moves => exact moves.communityAt_eq hr hv

/-- A community that is left without members loses its sum, all others keep theirs or gain one. -/
private theorem Moves.vacantZero (hr : r.Indexes d.byNode.size) (hv : v < d.byNode.size)
    (hmoves : r.Moves d.byNode.size v c (d.degreeAt v) r') (hzero : r.VacantZero) :
    r'.VacantZero := by
  have hat := hmoves.communityAt_eq hr hv
  intro c' hc' hnone
  rw [hmoves.indexes.membersOf_eq_nil_iff hc', hat] at hnone
  rw [hmoves.capacity_eq] at hc'
  have hcc : c' ≠ c := by
    rintro rfl
    exact hnone ⟨v, hv, Function.update_self _ _ _⟩
  have hothers : ∀ u < d.byNode.size, u ≠ v → r.communityAt u ≠ c' := fun u hu huv hcu =>
    hnone ⟨u, hu, by rwa [Function.update_of_ne huv]⟩
  by_cases hac : c' = r.communityAt v
  · subst hac
    exact hmoves.sumAt_alone fun u hu hcu => by_contra fun huv => hothers u hu huv hcu
  · rw [hmoves.sumAt_other c' hc' hcc hac]
    refine hzero c' hc' ((hr.membersOf_eq_nil_iff hc').2 ?_)
    rintro ⟨u, hu, hcu⟩
    have huv : u ≠ v := by
      rintro rfl
      exact hac hcu.symm
    exact hothers u hu huv hcu

theorem Step.inStep (hr : InStep d r) (hv : v < d.byNode.size) (h : Step d r v c r') :
    InStep d r' := by
  cases h with
  | stay => exact hr
  | go elsewhere moves =>
    exact ⟨moves.indexes, moves.counts hr.indexes hv elsewhere hr.counts,
      moves.vacantZero hr.indexes hv hr.vacantZero⟩

theorem Step.consistent {K : Type} [Field K] [LinearOrder K] {d : Degrees K} {r r' : Roster K}
    (hr : r.Consistent d) (hv : v < d.byNode.size) (hc : c < r.capacity) (h : Step d r v c r') :
    r'.Consistent d := by
  cases h with
  | stay => exact hr
  | go elsewhere moves => exact moves.consistent hr hv hc elsewhere

/-- The count of a roster after a step, without a subtraction. -/
theorem Step.occupied_add (hr : InStep d r) (hv : v < d.byNode.size) (h : Step d r v c r') :
    r'.occupied + (if r'.membersOf (r.communityAt v) = [] then 1 else 0) =
      r.occupied + if r.membersOf c = [] then 1 else 0 := by
  cases h with
  | stay there => rw [there]
  | go elsewhere moves => exact moves.occupied_add hr.indexes hv elsewhere hr.counts

/-! ## All moves -/

theorem history_concat (d : Degrees W) (r : Roster W) (moves : List (Nat × Nat)) :
    r.history d (moves ++ [(v, c)]) = (do
      let r ← r.history d moves
      r.move v (← r.community v) c (← d.degree v)) := by
  rw [history, List.foldlM_append, history]
  congr 1
  funext r
  exact bind_pure _

/-- What moves keep as long as the roster is in step, a history keeps. -/
theorem exists_history (inv : Roster W → Prop) (hstart : InStep d start) (h0 : inv start)
    (keeps : ∀ r v c r', InStep d r → inv r → v < d.byNode.size → c < r.capacity →
      Step d r v c r' → inv r')
    {moves : List (Nat × Nat)} (hmoves : ∀ m ∈ moves, m.1 < d.byNode.size ∧ m.2 < start.capacity) :
    ∃ r, start.history d moves = .ok r ∧ r.capacity = start.capacity ∧ InStep d r ∧ inv r := by
  refine exists_foldlM (fun _ r => r.capacity = start.capacity ∧ InStep d r ∧ inv r)
    ⟨rfl, hstart, h0⟩ fun done m rest hsplit r ⟨hcapacity, hstep, hinv⟩ => ?_
  obtain ⟨hv, hc⟩ := hmoves m (by rw [hsplit]; simp)
  rw [← hcapacity] at hc
  obtain ⟨r', hmove, hr'⟩ := exists_step hstep.indexes hv hc
  exact ⟨r', hmove, hr'.capacity_eq.trans hcapacity, hr'.inStep hstep hv,
    keeps r m.1 m.2 r' hstep hinv hv hc hr'⟩

/-- Two rosters with as many ids that tell the same partition are the same. -/
theorem Consistent.eq_of_communityOf (h : r.Consistent d) (h' : r'.Consistent d)
    (hcount : r.Counts d.byNode.size) (hcount' : r'.Counts d.byNode.size)
    (hcapacity : r'.capacity = r.capacity) (hsame : r'.communityOf = r.communityOf) : r' = r := by
  have hat : r'.communityAt = r.communityAt := by
    funext v
    rw [communityAt, communityAt, hsame]
  have hlist : ∀ c < r.capacity, r'.membersOf c = r.membersOf c := fun c hc => by
    rw [h.indexes.membersOf_eq hc, h'.indexes.membersOf_eq (hcapacity ▸ hc), hat]
  have hmembers : r'.members = r.members := by
    apply Array.ext hcapacity
    intro c hc' hc
    simpa [membersOf, Array.getD, hc, hc'] using hlist c hc
  have hsums : r'.degreeSums = r.degreeSums := by
    have hsize : r'.degreeSums.size = r.degreeSums.size := by
      rw [h'.indexes.size_degreeSums, h.indexes.size_degreeSums, hcapacity]
    refine Array.ext hsize fun c hc' hc => ?_
    have hc'' : c < r.capacity := h.indexes.size_degreeSums ▸ hc
    have hsum : r'.sumAt c = r.sumAt c := by
      rw [h.sumAt_eq c hc'', h'.sumAt_eq c (hcapacity ▸ hc''), hlist c hc'']
    simpa [sumAt, Array.getD, hc, hc'] using hsum
  rw [Counts, hat, ← hcount] at hcount'
  obtain ⟨communityOf, members, sums, occupied⟩ := r
  obtain ⟨communityOf', members', sums', occupied'⟩ := r'
  simp_all

/-! ## What a history leaves behind -/

/-- A roster is the index of the partition of the nodes below `n` that it tells. -/
structure Faithful (r : Roster W) (n : Nat) : Prop where
  /-- The nodes, and no others, have a community. -/
  community : ∀ v, (∃ c < r.capacity, r.community v = .ok c) ↔ v < n
  /-- The members of a community are the nodes that are in it. -/
  mem_membersOf : ∀ c < r.capacity, ∀ v, v ∈ r.membersOf c ↔ r.community v = .ok c
  /-- They ascend strictly. -/
  ascending : ∀ c < r.capacity, (r.membersOf c).Pairwise (· < ·)
  /-- Each node is in exactly one list of members. -/
  unique : ∀ v < n, ∃! c, c < r.capacity ∧ v ∈ r.membersOf c
  /-- The count is that of the lists with members. -/
  occupied_eq : r.occupied = r.members.countP (!·.isEmpty)
  /-- A community without members has the degree sum zero. -/
  vacant : ∀ c < r.capacity, r.membersOf c = [] → r.degreeSum c = .ok 0

/-- What a move of node `v` to community `c` makes of a roster: only the community of `v` changes,
and the count is never taken below zero. -/
structure Relocates (r : Roster W) (v c : Nat) (r' : Roster W) : Prop where
  /-- The node is in `c`, all others are where they were. -/
  community_eq : ∀ u, r'.community u = if u = v then .ok c else r.community u
  /-- The origin counts no longer if it is left without members, the target counts if it was. -/
  occupied_add : ∀ origin, r.community v = .ok origin →
    r'.occupied + (if r'.membersOf origin = [] then 1 else 0) =
      r.occupied + if r.membersOf c = [] then 1 else 0

theorem InStep.faithful (h : InStep d r) : r.Faithful d.byNode.size := by
  refine ⟨fun v => ⟨?_, ?_⟩, fun c hc v => ?_, fun c hc => ?_, fun v hv => ?_, ?_,
    fun c hc hnone => ?_⟩
  · rintro ⟨c, -, hc⟩
    exact (h.indexes.community_eq_ok_iff.1 hc).1
  · exact fun hv => ⟨_, h.indexes.communityAt_lt v hv, h.indexes.community_eq hv⟩
  · rw [h.indexes.mem_membersOf hc, h.indexes.community_eq_ok_iff]
  · rw [h.indexes.membersOf_eq hc]
    exact List.pairwise_lt_range.sublist List.filter_sublist
  · have hown := h.indexes.communityAt_lt v hv
    refine ⟨r.communityAt v, ⟨hown, (h.indexes.mem_membersOf hown).2 ⟨hv, rfl⟩⟩, ?_⟩
    rintro c ⟨hc, hmem⟩
    exact ((h.indexes.mem_membersOf hc).1 hmem).2.symm
  · rw [h.indexes.countP_members]
    exact h.counts
  · rw [h.indexes.degreeSum_eq hc, h.vacantZero c hc hnone]

theorem Step.relocates (hr : InStep d r) (hv : v < d.byNode.size) (h : Step d r v c r') :
    r.Relocates v c r' := by
  have hr' := h.inStep hr hv
  refine ⟨fun u => ?_, fun origin horigin => ?_⟩
  · by_cases hu : u < d.byNode.size
    · rw [hr'.indexes.community_eq hu, h.communityAt_eq hr.indexes hv, Function.update_apply]
      split
      · rfl
      · rw [hr.indexes.community_eq hu]
    · have huv : u ≠ v := by
        rintro rfl
        exact hu hv
      have hout : ∀ {r : Roster W}, r.Indexes d.byNode.size → r.community u = .error .outOfRange :=
        fun hindexes => fetch_eq_error_iff.2
          ⟨by rw [hindexes.size_eq]; exact Nat.not_lt.1 hu, rfl⟩
      rw [if_neg huv, hout hr'.indexes, hout hr.indexes]
  · rw [hr.indexes.community_eq hv] at horigin
    cases horigin
    exact h.occupied_add hr hv

/-- Any moves of nodes to communities, one after the other, succeed. In any arithmetic they leave a
roster that is the index of its partition, and the next move changes the community of its node and
no other. In exact arithmetic the degree sums are those of the members, and the roster depends on
nothing but the number of its ids and the communities of the nodes, whatever start and moves have
led to them. -/
theorem history_faithful :
    (∀ (W : Type) [Weight W] (d : Degrees W) (p : Partition), p.Covers d.byNode.size →
      ((∃ r, ofPartition p d = .ok r) ↔ 24 * p.count < tableBytes)) ∧
    (∀ (W : Type) [Weight W] (d : Degrees W) (start : Roster W), Starts d start →
      ∀ moves : List (Nat × Nat), (∀ m ∈ moves, m.1 < d.byNode.size ∧ m.2 < start.capacity) →
        ∃ r, start.history d moves = .ok r ∧ r.capacity = start.capacity ∧
          r.Faithful d.byNode.size ∧
          ∀ v < d.byNode.size, ∀ c < r.capacity,
            ∃ r', start.history d (moves ++ [(v, c)]) = .ok r' ∧ r.Relocates v c r') ∧
    ∀ (K : Type) [Field K] [LinearOrder K] (d : Degrees K) (start : Roster K), Starts d start →
      ∀ moves : List (Nat × Nat), (∀ m ∈ moves, m.1 < d.byNode.size ∧ m.2 < start.capacity) →
        ∀ r, start.history d moves = .ok r →
          (∀ c < r.capacity, r.degreeSum c = .ok ((r.membersOf c).map d.degreeAt).sum) ∧
          ∀ start', Starts d start' →
            ∀ moves' : List (Nat × Nat),
              (∀ m ∈ moves', m.1 < d.byNode.size ∧ m.2 < start'.capacity) →
              ∀ r', start'.history d moves' = .ok r' → r'.capacity = r.capacity →
                r'.communityOf = r.communityOf → r' = r := by
  refine ⟨fun W _ d p hp => ⟨fun ⟨r, hr⟩ => table_lt_of_ofPartition hr, fun htable => ?_⟩,
    fun W _ d start hstart moves hmoves => ?_, fun K _ _ d start hstart moves hmoves r hr => ?_⟩
  · obtain ⟨r, hr, -⟩ := ofPartition_eq_ok hp htable
    exact ⟨r, hr⟩
  · obtain ⟨r, hr, hcapacity, hstep, -⟩ :=
      exists_history (fun _ => True) hstart.inStep trivial (fun _ _ _ _ _ _ _ _ _ => trivial) hmoves
    refine ⟨r, hr, hcapacity, hstep.faithful, fun v hv c hc => ?_⟩
    obtain ⟨r', hr', hnext⟩ := exists_step hstep.indexes hv hc
    exact ⟨r', by rw [history_concat, hr, ok_bind, hr'], hnext.relocates hstep hv⟩
  · have hkept : ∀ start, Starts d start → ∀ moves : List (Nat × Nat),
        (∀ m ∈ moves, m.1 < d.byNode.size ∧ m.2 < start.capacity) →
        ∀ r, start.history d moves = .ok r → InStep d r ∧ r.Consistent d := by
      intro start hstart moves hmoves r hr
      obtain ⟨r₀, hr₀, -, hstep, hconsistent⟩ := exists_history (fun r => r.Consistent d)
        hstart.inStep hstart.consistent (fun _ _ _ _ _ h hv hc hnext => hnext.consistent h hv hc)
        hmoves
      rw [hr] at hr₀
      cases hr₀
      exact ⟨hstep, hconsistent⟩
    obtain ⟨hstep, hconsistent⟩ := hkept start hstart moves hmoves r hr
    refine ⟨fun c hc => ?_, fun start' hstart' moves' hmoves' r' hr' hcapacity hsame => ?_⟩
    · rw [hconsistent.indexes.degreeSum_eq hc, hconsistent.sumAt_eq c hc, Weight.sum_eq]
    · obtain ⟨hstep', hconsistent'⟩ := hkept start' hstart' moves' hmoves' r' hr'
      exact hconsistent.eq_of_communityOf hconsistent' hstep.counts hstep'.counts hcapacity hsame

theorem history_faithful_pair :
    ∃ start r, ofPartition ⟨#[1, 0], 2⟩ Network.pair.degrees = .ok start ∧
      (singletons Network.pair.degrees).history Network.pair.degrees
        [(0, 1), (0, 0), (0, 0), (1, 0)] = .ok r ∧
      r.Faithful 2 ∧ r.degreeSum 0 = .ok ((r.membersOf 0).map Network.pair.degrees.degreeAt).sum ∧
      start.history Network.pair.degrees [(0, 0)] = .ok r := by
  obtain ⟨hstarts, hany, hexact⟩ := history_faithful
  have hcovers : (⟨#[1, 0], 2⟩ : Partition).Covers Network.pair.degrees.byNode.size :=
    ⟨by decide, by decide⟩
  obtain ⟨start, hstart⟩ := (hstarts ℚ Network.pair.degrees _ hcovers).2 (by decide)
  have hclasses : ofPartition ⟨#[1, 0], 2⟩ Network.pair.degrees =
      .ok ⟨#[1, 0], #[[1], [0]], #[1, 1], 2⟩ := by decide +kernel
  obtain rfl := Except.ok.inj (hstart.symm.trans hclasses)
  have hmoves : ∀ m ∈ [(0, 1), (0, 0), (0, 0), (1, 0)],
      m.1 < Network.pair.degrees.byNode.size ∧
        m.2 < (singletons Network.pair.degrees).capacity := by decide +kernel
  have hmoves' : ∀ m ∈ [(0, 0)], m.1 < Network.pair.degrees.byNode.size ∧
      m.2 < (⟨#[1, 0], #[[1], [0]], #[1, 1], 2⟩ : Roster ℚ).capacity := by decide
  obtain ⟨r, hr, hcapacity, hfaithful, -⟩ := hany ℚ _ _ .alone _ hmoves
  obtain ⟨r', hr', hcapacity', -⟩ := hany ℚ _ _ (.classes hcovers hclasses) _ hmoves'
  obtain ⟨hsums, honly⟩ := hexact ℚ _ _ .alone _ hmoves r hr
  have hjoined : ((singletons Network.pair.degrees).history Network.pair.degrees
        [(0, 1), (0, 0), (0, 0), (1, 0)]).map communityOf = .ok #[0, 0] ∧
      ((⟨#[1, 0], #[[1], [0]], #[1, 1], 2⟩ : Roster ℚ).history Network.pair.degrees
        [(0, 0)]).map communityOf = .ok #[0, 0] := by decide +kernel
  rw [hr, hr'] at hjoined
  have hsame : r'.communityOf = r.communityOf :=
    Except.ok.inj (hjoined.2.trans hjoined.1.symm)
  rw [capacity_singletons] at hcapacity
  obtain rfl := honly _ (.classes hcovers hclasses) _ hmoves' r' hr'
    (hcapacity'.trans hcapacity.symm) hsame
  exact ⟨_, _, hclasses, hr, hfaithful, hsums 0 (by rw [hcapacity]; decide), hr'⟩

end Roster

end Communities
