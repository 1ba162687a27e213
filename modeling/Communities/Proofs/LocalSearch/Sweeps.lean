import Communities.Proofs.LocalSearch.Turn

/-!
# What a search does

A search is a chain of sweeps, each of which starts from the communities that the one before has
left. It ends with a sweep without moves or at the cap, and a budget that is enough for it can be
raised without changing anything.

* `Search.Settled`: what a chain of sweeps can do, `Search.settle_spec`: a search does that.
* `Search.settle_ne_fault` and `Search.exists_settle_of_le`: no search fails, and one with a cap ends.
* `Search.run_spec` says it of the search of a level.
* `Search.settle_mono` and `Search.run_mono`: the budget does not show in the answer;
  `Search.run_congr`: nor does the space that a search works in.
-/

namespace Communities

theorem VisitOrder.nodes_perm (order : VisitOrder) (level n : Nat) :
    (order.nodes level n).Perm (Array.range n) := by
  cases order with
  | ascending => exact .refl _
  | shuffled seed => exact shuffled_perm _ _

theorem VisitOrder.lt_of_mem_nodes {order : VisitOrder} {level n v : Nat}
    (h : v ∈ order.nodes level n) : v < n := by
  have hmem : v ∈ Array.range n := (order.nodes_perm level n).mem_iff.1 h
  exact Array.mem_range.1 hmem

theorem VisitOrder.lt_of_mem_toList_nodes {order : VisitOrder} {level n : Nat} :
    ∀ v ∈ (order.nodes level n).toList, v < n := fun _ hv =>
  lt_of_mem_nodes (Array.mem_toList_iff.1 hv)

/-- The roster that the search of a level starts from. -/
theorem Roster.indexes_alone {W : Type} [Weight W] (net : Network W) :
    (Roster.singletons net.degrees).Indexes net.size :=
  net.size_byNode ▸ indexes_singletons net.degrees

namespace Search

variable {W : Type} [Weight W]

/-- What a search that gives each of the nodes in a list its turn in every sweep can do. -/
inductive Settled (t : Terrain W) (vs : List Nat) :
    Roster W → List (Sweep W) → Ending → Roster W → Prop
  /-- No more sweeps are allowed. -/
  | cap (r : Roster W) : Settled t vs r [] .capped r
  /-- A sweep moves no node. -/
  | last {r : Roster W} (still : Took t r vs [] r) :
    Settled t vs r [⟨[], r.occupied⟩] .settled r
  /-- A sweep moves some nodes, and another one follows. -/
  | more {r r' r'' : Roster W} {moves : List (Move W)} {rest : List (Sweep W)} {ending : Ending}
      (took : Took t r vs moves r') (moved : moves ≠ []) (later : Settled t vs r' rest ending r'') :
    Settled t vs r (⟨moves, r'.occupied⟩ :: rest) ending r''

theorem Turned.roster_eq {t : Terrain W} {r r' : Roster W} {v : Nat} (h : Turned t r v none r') :
    r' = r := by
  cases h; rfl

/-- Where no node moves nothing changes. -/
theorem Took.roster_eq {t : Terrain W} {r r' : Roster W} {vs : List Nat} {moves : List (Move W)}
    (h : Took t r vs moves r') (hmoves : moves = []) : r' = r := by
  induction h with
  | nil r => rfl
  | cons first rest ih =>
    rw [List.append_eq_nil_iff, Option.toList_eq_nil_iff] at hmoves
    obtain ⟨rfl, hmoves⟩ := hmoves
    rw [ih hmoves, first.roster_eq]

theorem Settled.indexes {t : Terrain W} {r r' : Roster W} {vs : List Nat}
    {sweeps : List (Sweep W)} {ending : Ending} (hr : r.Indexes t.net.size)
    (h : Settled t vs r sweeps ending r') : r'.Indexes t.net.size := by
  induction h with
  | cap => exact hr
  | last => exact hr
  | more took _ _ ih => exact ih (took.indexes hr)

theorem Settled.roster_eq {t : Terrain W} {r r' : Roster W} {vs : List Nat}
    {sweeps : List (Sweep W)} {ending : Ending} (h : Settled t vs r sweeps ending r')
    (hmoves : sweeps.flatMap (·.moves) = []) : r' = r := by
  cases h with
  | cap => rfl
  | last => rfl
  | more _ moved => exact absurd (List.append_eq_nil_iff.1 hmoves).1 moved

theorem settle_capped (t : Terrain W) (order : Array Nat) (budget : Nat) (w : Walk W) :
    settle t order budget (some 0) w = .ok ([], .capped, w) := by
  unfold settle; rfl

theorem settle_spent {t : Terrain W} {order : Array Nat} {left : Option Nat}
    (hleft : left ≠ some 0) (w : Walk W) : settle t order 0 left w = .error .unfinished := by
  rw [settle]
  exact hleft

/-- A search goes on from where its first sweep has led. -/
theorem settle_succ {t : Terrain W} {order : Array Nat} {left : Option Nat} (hleft : left ≠ some 0)
    {w w' : Walk W} {s : Sweep W} (hsweep : sweep t w order = .ok (s, w')) (budget : Nat) :
    settle t order (budget + 1) left w =
      if s.moves = [] then .ok ([s], .settled, w')
      else (settle t order budget (left.map (· - 1)) w').map
        fun (rest, ending, w) => (s :: rest, ending, w) := by
  rw [settle]
  · rw [hsweep, liftM_ok, ok_bind]
    by_cases hmoves : s.moves = []
    · simp [hmoves]
    · simp only [List.isEmpty_iff, hmoves, if_false]
      cases settle t order budget (left.map (· - 1)) w' <;> rfl
  · exact hleft

theorem settle_spec {t : Terrain W} {order : Array Nat} (horder : ∀ v ∈ order, v < t.net.size)
    {budget : Nat} {left : Option Nat} {w : Walk W} (h : Ready t w)
    {sweeps : List (Sweep W)} {ending : Ending} {w' : Walk W}
    (hsettle : settle t order budget left w = .ok (sweeps, ending, w')) :
    Ready t w' ∧ Settled t order.toList w.roster sweeps ending w'.roster := by
  induction budget generalizing left w sweeps with
  | zero =>
    by_cases hleft : left = some 0
    · rw [hleft, settle_capped] at hsettle
      cases hsettle
      exact ⟨h, .cap _⟩
    · rw [settle_spent hleft] at hsettle
      cases hsettle
  | succ budget ih =>
    by_cases hleft : left = some 0
    · rw [hleft, settle_capped] at hsettle
      cases hsettle
      exact ⟨h, .cap _⟩
    obtain ⟨moves, w₁, hsweep, h₁, htook⟩ := sweep_eq_ok h horder
    rw [settle_succ hleft hsweep] at hsettle
    by_cases hmoves : moves = []
    · subst hmoves
      have hsame := htook.roster_eq rfl
      rw [hsame] at htook
      cases hsettle
      exact ⟨h₁, by rw [hsame]; exact .last htook⟩
    · rw [if_neg hmoves] at hsettle
      cases hrest : settle t order budget (left.map (· - 1)) w₁ with
      | error e => rw [hrest] at hsettle; cases hsettle
      | ok end' =>
        rw [hrest] at hsettle
        cases hsettle
        obtain ⟨h₂, hlater⟩ := ih h₁ hrest
        exact ⟨h₂, .more htook hmoves hlater⟩

theorem settle_ne_fault {t : Terrain W} {order : Array Nat} (horder : ∀ v ∈ order, v < t.net.size)
    {budget : Nat} {left : Option Nat} {w : Walk W} (h : Ready t w) (fault : Fault) :
    settle t order budget left w ≠ .error (.fault fault) := by
  intro hfault
  by_cases hleft : left = some 0
  · rw [hleft, settle_capped] at hfault
    cases hfault
  induction budget generalizing left w with
  | zero => rw [settle_spent hleft] at hfault; cases hfault
  | succ budget ih =>
    obtain ⟨moves, w₁, hsweep, h₁, -⟩ := sweep_eq_ok h horder
    rw [settle_succ hleft hsweep] at hfault
    split at hfault
    · cases hfault
    have hrest : settle t order budget (left.map (· - 1)) w₁ = .error (.fault fault) := by
      cases hsettle : settle t order budget (left.map (· - 1)) w₁ with
      | error e => rw [hsettle] at hfault; cases hfault; rfl
      | ok found => rw [hsettle] at hfault; cases hfault
    by_cases hlast : left.map (· - 1) = some 0
    · rw [hlast, settle_capped] at hrest
      cases hrest
    · exact ih h₁ hrest hlast

/-- With a cap within the budget every search ends. -/
theorem exists_settle_of_le {t : Terrain W} {order : Array Nat}
    (horder : ∀ v ∈ order, v < t.net.size) {cap budget : Nat} (hcap : cap ≤ budget) {w : Walk W}
    (h : Ready t w) : ∃ found, settle t order budget (some cap) w = .ok found := by
  induction cap generalizing budget w with
  | zero => exact ⟨_, settle_capped _ _ _ _⟩
  | succ cap ih =>
    obtain ⟨budget, rfl⟩ : ∃ b, budget = b + 1 := ⟨budget - 1, by omega⟩
    obtain ⟨moves, w₁, hsweep, h₁, -⟩ := sweep_eq_ok h horder
    rw [settle_succ (by simp) hsweep]
    split
    · exact ⟨_, rfl⟩
    · have hle : cap ≤ budget := by omega
      obtain ⟨found, hfound⟩ := ih hle h₁
      exact ⟨_, by rw [Option.map_some, Nat.add_sub_cancel, hfound]; rfl⟩

/-! ## Budgets -/

theorem settle_mono {t : Terrain W} {order : Array Nat} {budget budget' : Nat}
    (hle : budget ≤ budget') {left : Option Nat} {w : Walk W}
    {found : List (Sweep W) × Ending × Walk W} (h : settle t order budget left w = .ok found) :
    settle t order budget' left w = .ok found := by
  induction budget generalizing budget' left w found with
  | zero =>
    by_cases hleft : left = some 0
    · rw [hleft, settle_capped] at h ⊢; exact h
    · rw [settle_spent hleft] at h; cases h
  | succ budget ih =>
    obtain ⟨budget', rfl⟩ : ∃ b, budget' = b + 1 := ⟨budget' - 1, by omega⟩
    by_cases hleft : left = some 0
    · rw [hleft, settle_capped] at h ⊢; exact h
    rw [settle] at h
    · obtain ⟨⟨s, w'⟩, hsweep, h⟩ := bind_eq_ok_iff.1 h
      rw [liftM_eq_ok_iff] at hsweep
      rw [settle_succ hleft hsweep]
      by_cases hmoves : s.moves = []
      · simp only [hmoves, List.isEmpty_nil, if_true] at h ⊢
        exact h
      · simp only [List.isEmpty_iff, hmoves, if_false] at h ⊢
        obtain ⟨found', hrest, h⟩ := bind_eq_ok_iff.1 h
        rw [ih (by omega) hrest]
        exact h
    · exact hleft

variable {settings : Settings W} {budget : Nat} {net : Network W} {degrees : Degrees W}
  {roster : Roster W} {level : Nat} {scratch : Scratch W} {s : Search W}

theorem run_of_pos (hpos : 0 < degrees.total) :
    run settings budget net degrees roster level scratch =
      (settle ⟨net, degrees, settings.threshold⟩ (settings.order.nodes level net.size) budget
        settings.maxSweeps ⟨roster, scratch.tally.blank roster.capacity⟩).map
        fun (sweeps, ending, w) =>
          ⟨sweeps, ending, w.roster, ⟨settings.order.nodes level net.size, w.tally⟩⟩ := by
  rw [run, if_pos hpos]
  dsimp only
  cases settle ⟨net, degrees, settings.threshold⟩ (settings.order.nodes level net.size) budget
    settings.maxSweeps ⟨roster, scratch.tally.blank roster.capacity⟩ <;> rfl

theorem run_of_not_pos (hpos : ¬0 < degrees.total) :
    run settings budget net degrees roster level scratch = .ok ⟨[], .settled, roster, scratch⟩ := by
  rw [run, if_neg hpos]
  rfl

theorem run_mono {budget' : Nat} (hle : budget ≤ budget')
    (h : run settings budget net degrees roster level scratch = .ok s) :
    run settings budget' net degrees roster level scratch = .ok s := by
  by_cases hpos : 0 < degrees.total
  · rw [run_of_pos hpos] at h ⊢
    obtain ⟨found, hsettle, h⟩ := map_eq_ok_iff.1 h
    rw [settle_mono hle hsettle, ← h]
    rfl
  · rw [run_of_not_pos hpos] at h ⊢
    exact h

/-- A search does not depend on the space that it works in. All that it takes from the settings and
from the number of its level is the threshold, the cap on sweeps and the order of turns. -/
theorem run_congr (settings' : Settings W) {level' : Nat}
    (hthreshold : settings'.threshold = settings.threshold)
    (hcap : settings'.maxSweeps = settings.maxSweeps)
    (horder : settings'.order.nodes level' net.size = settings.order.nodes level net.size)
    (h : run settings budget net degrees roster level scratch = .ok s) (scratch' : Scratch W) :
    ∃ space, run settings' budget net degrees roster level' scratch' =
      .ok { s with scratch := space } := by
  by_cases hpos : 0 < degrees.total
  · have hblank : scratch'.tally.blank roster.capacity = scratch.tally.blank roster.capacity := by
      rw [Tally.blank, Tally.blank, reuse_eq, reuse_eq, reuse_eq, reuse_eq]
    refine ⟨s.scratch, ?_⟩
    rw [run_of_pos hpos] at h ⊢
    rw [hthreshold, hcap, horder, hblank, h]
  · rw [run_of_not_pos hpos] at h ⊢
    cases h
    exact ⟨scratch', rfl⟩

/-! ## The search of a level -/

/-- A search makes no sweep without weight, and a chain of sweeps with it. -/
theorem run_spec (hnet : net.Canonical) (hr : roster.Indexes net.size)
    (h : run settings budget net net.degrees roster level scratch = .ok s) :
    (¬0 < net.degrees.total ∧ s = ⟨[], .settled, roster, scratch⟩) ∨
      (0 < net.degrees.total ∧ Settled ⟨net, net.degrees, settings.threshold⟩
        (settings.order.nodes level net.size).toList roster s.sweeps s.ending s.roster) := by
  by_cases hpos : 0 < net.degrees.total
  · rw [run_of_pos hpos] at h
    obtain ⟨⟨sweeps, ending, w'⟩, hsettle, h⟩ := map_eq_ok_iff.1 h
    have hready : Ready ⟨net, net.degrees, settings.threshold⟩
        ⟨roster, scratch.tally.blank roster.capacity⟩ :=
      ⟨⟨hnet, rfl, hpos⟩, hr, Tally.clear_blank _ _⟩
    have hsettled := (settle_spec (fun v => VisitOrder.lt_of_mem_nodes) hready hsettle).2
    rw [← h]
    exact .inr ⟨hpos, hsettled⟩
  · rw [run_of_not_pos hpos] at h
    cases h
    exact .inl ⟨hpos, rfl⟩

theorem run_indexes (hnet : net.Canonical) (hr : roster.Indexes net.size)
    (h : run settings budget net net.degrees roster level scratch = .ok s) :
    s.roster.Indexes net.size := by
  rcases run_spec hnet hr h with ⟨-, rfl⟩ | ⟨-, hsettled⟩
  · exact hr
  · exact hsettled.indexes hr

theorem run_roster_eq (hnet : net.Canonical) (hr : roster.Indexes net.size)
    (h : run settings budget net net.degrees roster level scratch = .ok s)
    (hstill : s.moveCount = 0) : s.roster = roster := by
  rcases run_spec hnet hr h with ⟨-, rfl⟩ | ⟨-, hsettled⟩
  · rfl
  · exact hsettled.roster_eq (List.length_eq_zero_iff.1 hstill)

end Search

end Communities
