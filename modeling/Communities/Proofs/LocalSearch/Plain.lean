import Communities.Proofs.LocalSearch.Gain
import Communities.Proofs.Modularity.Score
import Mathlib.Data.Finset.Sort

/-!
# The plain search

The plain search keeps nothing but the community of each node. At its turn it tries a node in each
community that holds a neighbour, scores the whole partition from scratch every time, and moves the
node to the community with the largest increase if that is above the threshold. In exact arithmetic
the search of the library, with its tally, its degree sums and its closed formula for the gain, makes
the same moves in the same order.

* `Plain.turn`, `Plain.turns` and `Plain.settle` are the plain search.
* `Search.Turned.plain` and `Search.Took.plain`: turn by turn both searches do the same.
* `settle_eq_plain`: so do whole searches, from any roster that is consistent with the network.
-/

namespace Communities

variable {K : Type} [Field K] [LinearOrder K]

/-- The communities of the nodes after a move. -/
def Move.relabel {W : Type} (labels : Array Nat) (move : Move W) : Array Nat :=
  labels.setIfInBounds move.node move.target

namespace Plain

/-! ## Definition -/

/-- A sweep, and where it leaves the nodes. -/
structure Round (W : Type) where
  /-- The moves, in the order they were made. -/
  moves : List (Move W)
  /-- The community of each node at the end. -/
  labels : Array Nat

/-- What comes of a search. -/
structure Outcome (W : Type) where
  /-- The sweeps. -/
  rounds : List (Round W)
  /-- How it ended. -/
  ending : Ending
  /-- The community of each node in the end. -/
  labels : Array Nat

/-- The communities other than its own that hold a neighbour of a node, ascending. -/
def rivals (net : Network K) (labels : Array Nat) (node : Nat) : Except Fault (List Nat) := do
  let own ← fetch labels node
  let held ← (← net.links node).mapM fun link => fetch labels link.target
  return (held.toFinset.erase own).sort

/-- The increase of modularity that each of them offers to the node. -/
def offers (net : Network K) (labels : Array Nat) (node : Nat) : Except Fault (List (Offer K)) := do
  let now ← modularity net (.ofLabels labels)
  (← rivals net labels node).mapM fun c => do
    let moved ← modularity net (.ofLabels (labels.setIfInBounds node c))
    return ⟨c, moved - now⟩

/-- The turn of a node: it takes the first offer of the largest increase if that is above the
threshold. -/
def turn (net : Network K) (threshold : K) (labels : Array Nat) (node : Nat) :
    Except Fault (Option (Move K) × Array Nat) := do
  let own ← fetch labels node
  match (← offers net labels node).argmax Offer.gain with
  | none => return (none, labels)
  | some o =>
    if threshold < o.gain then
      return (some ⟨node, own, o.community, o.gain⟩, labels.setIfInBounds node o.community)
    else
      return (none, labels)

/-- The turns of the nodes in a list. -/
def turns (net : Network K) (threshold : K) :
    Array Nat → List Nat → Except Fault (List (Move K) × Array Nat)
  | labels, [] => return ([], labels)
  | labels, node :: rest => do
    let (move, labels) ← turn net threshold labels node
    let (moves, labels) ← turns net threshold labels rest
    return (move.toList ++ moves, labels)

/-- The outcome with one more round in front. -/
def Outcome.cons (round : Round K) (rest : Outcome K) : Outcome K :=
  { rest with rounds := round :: rest.rounds }

/-- Sweeps until one moves no node: at most `left` if that is given, and never more than a
budget. -/
def settle (net : Network K) (threshold : K) (order : Array Nat) :
    Nat → Option Nat → Array Nat → Except Interrupt (Outcome K)
  | _, some 0, labels => return ⟨[], .capped, labels⟩
  | 0, _, _ => .error .unfinished
  | budget + 1, left, labels => do
    let (moves, labels) ← turns net threshold labels order.toList
    if moves = [] then
      return ⟨[⟨moves, labels⟩], .settled, labels⟩
    else
      return (← settle net threshold order budget (left.map (· - 1)) labels).cons ⟨moves, labels⟩

end Plain

namespace Search

/-- The sweeps of a search that starts at `labels`, each with where its moves leave the nodes. -/
def rounds : Array Nat → List (Sweep K) → List (Plain.Round K)
  | _, [] => []
  | labels, s :: rest =>
    let labels := s.moves.foldl Move.relabel labels
    ⟨s.moves, labels⟩ :: rounds labels rest

/-- What the plain search would call the result of a search that starts at `labels`. -/
def outcome (labels : Array Nat) (sweeps : List (Sweep K)) (ending : Ending) (roster : Roster K) :
    Plain.Outcome K :=
  ⟨rounds labels sweeps, ending, roster.communityOf⟩

/-! ## Turn by turn -/

section Turn

variable {t : Terrain K} {r r' : Roster K} {v : Nat}

private theorem fetch_communityOf {W : Type} {r : Roster W} {n u : Nat} (hr : r.Indexes n)
    (hu : u < n) : fetch r.communityOf u = .ok (r.communityAt u) :=
  hr.community_eq hu

omit [Field K] [LinearOrder K] in
theorem plain_rivals {net : Network K} (hnet : net.Canonical) (hr : r.Indexes net.size)
    (hv : v < net.size) : Plain.rivals net r.communityOf v = .ok (net.rivals r v) := by
  have hheld : (net.row v).mapM (fun link => fetch r.communityOf link.target) =
      .ok ((net.row v).map fun link => r.communityAt link.target) :=
    mapM_eq_ok fun link hlink => fetch_communityOf hr (hnet.target_lt_of_mem_row hv hlink)
  rw [Plain.rivals, fetch_communityOf hr hv, ok_bind, hnet.links_eq hv, ok_bind, hheld, ok_bind,
    pure_eq_ok]
  congr 1
  refine List.Pairwise.eq_of_mem_iff (Finset.sortedLT_sort _).pairwise
    (List.pairwise_lt_range.sublist List.filter_sublist) fun c => ?_
  rw [Finset.mem_sort, Finset.mem_erase, List.mem_toFinset, List.mem_map]
  exact (Network.mem_rivals_iff hnet hr hv).symm

theorem plain_offers (ht : t.Sound) (hr : r.Consistent t.degrees) (hv : v < t.net.size) :
    Plain.offers t.net r.communityOf v = .ok (t.offers r v) := by
  have hnet := ht.canonical
  have hindexes := ht.indexes hr
  have hnow := modularity_ofLabels hnet hindexes.size_eq
  rw [Plain.offers, hnow, ok_bind, plain_rivals hnet hindexes hv, ok_bind]
  refine mapM_eq_ok fun c hc => ?_
  obtain ⟨hlt, hne, -⟩ := Network.mem_rivals.1 hc
  have hsize : (r.communityOf.setIfInBounds v c).size = t.net.size := by
    rw [Array.size_setIfInBounds, hindexes.size_eq]
  have hmoved := modularity_ofLabels hnet hsize
  have hupdate : ((r.communityOf.setIfInBounds v c).getD · 0) =
      Function.update r.communityAt v c :=
    getD_setIfInBounds (hindexes.size_eq.symm ▸ hv) c
  rw [hmoved, ok_bind, hupdate, pure_eq_ok, Terrain.gainAt_eq ht hr hv hlt hne.symm]
  rfl

/-- At the same turn the plain search makes the same move. -/
theorem Turned.plain (ht : t.Sound) (hr : r.Consistent t.degrees) (hv : v < t.net.size)
    {move : Option (Move K)} (h : Turned t r v move r') :
    Plain.turn t.net t.threshold r.communityOf v = .ok (move, r'.communityOf) := by
  rw [Plain.turn, fetch_communityOf (ht.indexes hr) hv, ok_bind, plain_offers ht hr hv, ok_bind,
    ← Terrain.best_eq_argmax]
  cases h with
  | stay below =>
    cases hoffer : t.best r v with
    | none => rfl
    | some o => simp only [if_neg (below o hoffer)]; rfl
  | go best above moves =>
    simp only [best, if_pos above, moves.communityOf_eq]
    rfl

end Turn

/-! ## Sweep by sweep -/

section Sweeps

theorem Turned.relabel {W : Type} [Weight W] {t : Terrain W} {r r' : Roster W} {v : Nat}
    {move : Option (Move W)} (h : Turned t r v move r') :
    r'.communityOf = move.toList.foldl Move.relabel r.communityOf := by
  cases h with
  | stay => rfl
  | go best above moves => exact moves.communityOf_eq

/-- The moves tell where they leave the nodes. -/
theorem Took.relabel {W : Type} [Weight W] {t : Terrain W} {r r' : Roster W} {vs : List Nat}
    {moves : List (Move W)} (h : Took t r vs moves r') :
    r'.communityOf = moves.foldl Move.relabel r.communityOf := by
  induction h with
  | nil => rfl
  | cons first rest ih => rw [ih, first.relabel, List.foldl_append]

variable {t : Terrain K}

theorem Took.plain (ht : t.Sound) {r r' : Roster K} (hr : r.Consistent t.degrees) {vs : List Nat}
    (hvs : ∀ v ∈ vs, v < t.net.size) {moves : List (Move K)} (h : Took t r vs moves r') :
    Plain.turns t.net t.threshold r.communityOf vs = .ok (moves, r'.communityOf) := by
  induction h with
  | nil => rfl
  | cons first rest ih =>
    rw [List.forall_mem_cons] at hvs
    have hrest := ih (first.consistent ht hr hvs.1) hvs.2
    rw [Plain.turns, first.plain ht hr hvs.1, ok_bind]
    simp only [hrest, ok_bind, pure_eq_ok]

theorem settle_plain {order : Array Nat} (horder : ∀ v ∈ order, v < t.net.size) (budget : Nat)
    (left : Option Nat) {w : Walk K} (h : Ready t w) (hw : w.roster.Consistent t.degrees) :
    (settle t order budget left w).map (fun (sweeps, ending, w') =>
        outcome w.roster.communityOf sweeps ending w'.roster) =
      Plain.settle t.net t.threshold order budget left w.roster.communityOf := by
  induction budget generalizing left w with
  | zero =>
    by_cases hleft : left = some 0
    · rw [hleft, settle_capped]; rfl
    · rw [settle_spent hleft, Plain.settle]
      · rfl
      · exact hleft
  | succ budget ih =>
    by_cases hleft : left = some 0
    · rw [hleft, settle_capped]; rfl
    have hvs : ∀ v ∈ order.toList, v < t.net.size := fun v hv => horder v (by simpa using hv)
    obtain ⟨moves, w₁, hsweep, h₁, htook⟩ := sweep_eq_ok h horder
    have hplain := htook.plain h.toSound hw hvs
    have hlabels := htook.relabel
    rw [settle_succ hleft hsweep, Plain.settle]
    · rw [hplain, liftM_ok, ok_bind]
      by_cases hmoves : moves = []
      · subst hmoves
        rw [if_pos rfl]
        simp [Except.map, outcome, rounds, hlabels]
      · have hrest := ih (left.map (· - 1)) h₁ (htook.consistent h.toSound hw hvs)
        simp only [if_neg hmoves]
        rw [← hrest]
        cases settle t order budget (left.map (· - 1)) w₁ with
        | error e => rfl
        | ok found => simp [Except.map, outcome, rounds, hlabels, Plain.Outcome.cons]
    · exact hleft

end Sweeps

end Search

/-- From any communities that are consistent with a network that has weight, the search makes the
moves of the plain search, sweep by sweep and turn by turn, whatever the threshold, the order of
turns, the cap and the budget. Neither meets a fault, and with a cap within the budget both end, so
the communities after every sweep are among what is compared. -/
theorem settle_eq_plain {net : Network K} (hnet : net.Built) (hpos : 0 < net.degrees.total)
    {r : Roster K} (hr : r.Consistent net.degrees) :
    (∀ (threshold : K) (order : Array Nat), order.Perm (Array.range net.size) →
      ∀ (budget : Nat) (left : Option Nat) (tally : Tally K),
        (Search.settle ⟨net, net.degrees, threshold⟩ order budget left
            ⟨r, tally.blank r.capacity⟩).map (fun (sweeps, ending, w) =>
              Search.outcome r.communityOf sweeps ending w.roster) =
          Plain.settle net threshold order budget left r.communityOf ∧
        (∀ fault, Plain.settle net threshold order budget left r.communityOf ≠
          .error (.fault fault)) ∧
        ∀ cap ≤ budget, left = some cap →
          ∃ found, Plain.settle net threshold order budget left r.communityOf = .ok found) ∧
    ∀ (settings : Settings K) (budget level : Nat) (scratch : Scratch K),
      (Search.run settings budget net net.degrees r level scratch).map
          (fun s => Search.outcome r.communityOf s.sweeps s.ending s.roster) =
        Plain.settle net settings.threshold (settings.order.nodes level net.size) budget
          settings.maxSweeps r.communityOf := by
  have hsound : ∀ threshold, Terrain.Sound ⟨net, net.degrees, threshold⟩ := fun threshold =>
    ⟨hnet.canonical, rfl, hpos⟩
  have hready : ∀ threshold (tally : Tally K), Search.Ready ⟨net, net.degrees, threshold⟩
      ⟨r, tally.blank r.capacity⟩ := fun threshold tally =>
    ⟨hsound threshold, (hsound threshold).indexes hr, Tally.clear_blank _ _⟩
  have hbelow : ∀ {order : Array Nat}, order.Perm (Array.range net.size) →
      ∀ v ∈ order, v < net.size := fun horder v hv => Array.mem_range.1 (horder.mem_iff.1 hv)
  have hsettle : ∀ threshold {order : Array Nat}, order.Perm (Array.range net.size) →
      ∀ budget left (tally : Tally K),
        (Search.settle ⟨net, net.degrees, threshold⟩ order budget left
            ⟨r, tally.blank r.capacity⟩).map (fun (sweeps, ending, w) =>
              Search.outcome r.communityOf sweeps ending w.roster) =
          Plain.settle net threshold order budget left r.communityOf :=
    fun threshold order horder budget left tally =>
      Search.settle_plain (hbelow horder) budget left (hready threshold tally) hr
  refine ⟨fun threshold order horder budget left tally =>
    ⟨hsettle threshold horder budget left tally, fun fault hfault => ?_, ?_⟩, ?_⟩
  · rw [← hsettle threshold horder budget left tally, map_eq_error_iff] at hfault
    exact Search.settle_ne_fault (hbelow horder) (hready threshold tally) fault hfault
  · rintro cap hcap rfl
    obtain ⟨found, hfound⟩ :=
      Search.exists_settle_of_le (hbelow horder) hcap (hready threshold tally)
    exact ⟨_, by rw [← hsettle threshold horder budget (some cap) tally, hfound]; rfl⟩
  · intro settings budget level scratch
    rw [Search.run_of_pos hpos, ← hsettle settings.threshold (settings.order.nodes_perm level _)
      budget settings.maxSweeps scratch.tally]
    cases Search.settle ⟨net, net.degrees, settings.threshold⟩ _ budget settings.maxSweeps
      ⟨r, scratch.tally.blank r.capacity⟩ <;> rfl

theorem settle_pair_eq_plain :
    Network.pair.Built ∧ 0 < Network.pair.degrees.total ∧
      (Roster.singletons Network.pair.degrees).Consistent Network.pair.degrees ∧
      (Search.settle ⟨Network.pair, Network.pair.degrees, 1 / 10⟩ #[1, 0] 3 none
          ⟨.singletons Network.pair.degrees,
            Tally.empty.blank (Roster.singletons Network.pair.degrees).capacity⟩).map
          (fun (sweeps, ending, w) => Search.outcome #[0, 1] sweeps ending w.roster) =
        Plain.settle Network.pair (1 / 10) #[1, 0] 3 none #[0, 1] := by
  have hpos : 0 < Network.pair.degrees.total := by decide +kernel
  have hr := Roster.consistent_singletons Network.pair.degrees
  have hlabels : (Roster.singletons Network.pair.degrees).communityOf = #[0, 1] := by
    simp [Roster.singletons, Network.degrees, Network.pair]
    rfl
  have horder : (#[1, 0] : Array Nat).Perm (Array.range Network.pair.size) := by
    rw [Array.perm_iff_toList_perm]
    decide
  have h := ((settle_eq_plain Network.built_pair hpos hr).1 (1 / 10) #[1, 0] horder 3 none .empty).1
  rw [hlabels] at h
  exact ⟨Network.built_pair, hpos, hr, h⟩

end Communities
