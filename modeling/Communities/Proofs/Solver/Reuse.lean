import Communities.Proofs.LocalSearch.Scratch
import Communities.Proofs.Solver.Curtailed
import Communities.Proofs.Solver.Stages

/-!
# A solver that is used again

A solver is called again and again, and its space goes from one call to the next, also from a call
that was rejected or has not come to an end. A search makes its space blank before it starts, so a
call is answered as a solver answers it that has never been called, whatever came before. This holds
in any arithmetic.

* `climb_scratch`, `Solver.cluster_scratch` and `Solver.run_scratch`: climbs and runs do not depend
  on the space that they are given.
* `Call` and `Solver.Serves`: a sequence of calls of one solver; `Solver.serves_iff`: each of them
  is answered as by a new one.
-/

namespace Communities

variable {W : Type} [Weight W]

/-! ## Climbs -/

namespace Climb

/-- What a climb comes to, without the space that it leaves. -/
def upshot (c : Climb W) :
    List (Event W) × Except (Rejection W) (List (Level W) × Option (Network W)) :=
  (c.journal, c.result)

omit [Weight W] in
theorem upshot_cons {c c' : Climb W} (h : c.upshot = c'.upshot) (journal : List (Event W))
    (level : Level W) : (cons journal level c).upshot = (cons journal level c').upshot := by
  rw [upshot, upshot, Prod.mk.injEq] at h
  rw [cons, cons, h.1, h.2]
  rfl

omit [Weight W] in
theorem answer_congr {c c' : Climb W} (h : c.upshot = c'.upshot) (seed : Option Partition) :
    c.answer seed = c'.answer seed := by
  rw [upshot, upshot, Prod.mk.injEq] at h
  rw [answer, answer, h.1, h.2]

end Climb

/-- The space that a search leaves is only handed on. -/
theorem Search.onward_scratch (s : Search W) (space : Scratch W) (settings : Settings W)
    (number : Nat) (current : Network W) {above above' : Network W → Except Interrupt (Climb W)}
    (h : ∀ reduced, reduced.size < current.size →
      (above' reduced).map Climb.upshot = (above reduced).map Climb.upshot) :
    (Search.onward { s with scratch := space } settings number current above').map Climb.upshot =
      (s.onward settings number current above).map Climb.upshot := by
  have hmoves : moveCount { s with scratch := space } = s.moveCount := rfl
  have hlevel : level { s with scratch := space } current = s.level current := rfl
  rw [onward, onward, hmoves, hlevel]
  dsimp only
  split_ifs
  · rfl
  · rfl
  rw [map_bind_eq, map_bind_eq]
  refine congrArg _ (funext fun scored => ?_)
  split_ifs
  · rfl
  rw [map_bind_eq, map_bind_eq]
  refine congrArg _ (funext fun reduced => ?_)
  split_ifs with hdone
  · rfl
  rw [map_bind_eq, map_bind_eq]
  exact bind_congr_of_map (h reduced (not_not.1 (not_or.1 hdone).2)) fun c c' hc =>
    congrArg Except.ok (Climb.upshot_cons hc ..)

theorem climb_scratch (settings : Settings W) (budget number : Nat) (current : Network W)
    (scratch scratch' : Scratch W) :
    (climb settings budget number current scratch').map Climb.upshot =
      (climb settings budget number current scratch).map Climb.upshot := by
  induction hn : current.size using Nat.strong_induction_on
    generalizing number current scratch scratch' with
  | _ n ih =>
  subst hn
  rw [climb_eq_bind, climb_eq_bind,
    Search.run_scratch settings budget current _ _ number scratch scratch']
  cases Search.run settings budget current current.degrees (.singletons current.degrees) number
    scratch with
  | error e => rfl
  | ok s =>
    exact s.onward_scratch _ settings number current fun reduced hsmaller =>
      ih _ hsmaller _ _ _ _ rfl

/-! ## Runs -/

namespace Solver

variable (settings : Settings W) (budget : Nat) (scratch scratch' : Scratch W)

theorem cluster_scratch (net : Network W) (seed : Option (Array Nat)) :
    (cluster ⟨settings, scratch'⟩ budget net seed).map (·.1) =
      (cluster ⟨settings, scratch⟩ budget net seed).map (·.1) := by
  rw [cluster, cluster]
  cases (do settings.check; checkSeed net.size seed; checkEdges net.edges) with
  | error e => rfl
  | ok =>
    dsimp only
    rw [search_answer, search_answer]
    refine if_congr Iff.rfl rfl (congrArg _ (funext fun base => ?_))
    exact bind_congr_of_map (climb_scratch settings budget 0 base scratch scratch')
      fun c c' hc => congrArg liftM (Climb.answer_congr hc _)

theorem run_scratch {V : Type} (g : SourceGraph V) (weight : Option (V → W))
    (seed : Option (Array Nat)) :
    (run ⟨settings, scratch'⟩ budget g weight seed).map (·.1) =
      (run ⟨settings, scratch⟩ budget g weight seed).map (·.1) := by
  rw [run, run]
  split_ifs
  · rfl
  dsimp only
  cases (do settings.check; checkSeed g.nodeCount seed) with
  | error e => rfl
  | ok =>
    cases g.toNetwork weight with
    | error e => rfl
    | ok built =>
      cases built with
      | error e => rfl
      | ok net => exact cluster_scratch settings budget scratch scratch' net seed

end Solver

/-! ## Sequences of calls -/

/-- A call of a solver. -/
inductive Call (W : Type) : Type 1 where
  /-- The run on a network. -/
  | network (net : Network W) (seed : Option (Array Nat))
  /-- The run on a source graph. -/
  | graph {V : Type} (g : SourceGraph V) (weight : Option (V → W)) (seed : Option (Array Nat))

namespace Solver

variable {s s' : Solver W} {budget : Nat} {run : Run W}

/-- What a solver does when it is called, and how it is left. -/
def answer (s : Solver W) (budget : Nat) : Call W → Except Interrupt (Run W × Solver W)
  | .network net seed => s.cluster budget net seed
  | .graph g weight seed => s.run budget g weight seed

/-- A solver is called again and again, and gives the answers. An interrupted call may leave
anything in the space of the solver. -/
inductive Serves (budget : Nat) :
    Solver W → List (Call W) → List (Except Interrupt (Run W)) → Prop
  /-- No more calls. -/
  | nil (s : Solver W) : Serves budget s [] []
  /-- A call comes to an end, with a hierarchy or a rejection. -/
  | ended {s s' : Solver W} {call : Call W} {calls : List (Call W)} {run : Run W}
      {answers : List (Except Interrupt (Run W))}
      (answer_eq : s.answer budget call = .ok (run, s')) (rest : Serves budget s' calls answers) :
    Serves budget s (call :: calls) (.ok run :: answers)
  /-- A call is interrupted. -/
  | interrupted {s : Solver W} {call : Call W} {calls : List (Call W)} {interrupt : Interrupt}
      {answers : List (Except Interrupt (Run W))}
      (answer_eq : s.answer budget call = .error interrupt) (left : Scratch W)
      (rest : Serves budget ⟨s.settings, left⟩ calls answers) :
    Serves budget s (call :: calls) (.error interrupt :: answers)

private theorem settings_cluster {net : Network W} {seed : Option (Array Nat)}
    (h : s.cluster budget net seed = .ok (run, s')) : s'.settings = s.settings := by
  rw [cluster] at h
  split at h
  · cases h; rfl
  by_cases hedges : net.edgeCount = 0
  · rw [search_edgeless hedges] at h
    cases h
    rfl
  · obtain ⟨base, labels, hstart⟩ := exists_start h hedges
    rw [hstart.search_eq hedges, runFrom_eq_ok_iff] at h
    obtain ⟨c, -, rfl, -⟩ := h
    rfl

/-- No call changes the settings. -/
theorem settings_answer {call : Call W} (h : s.answer budget call = .ok (run, s')) :
    s'.settings = s.settings := by
  cases call with
  | network net seed => exact settings_cluster h
  | graph g weight seed =>
    rw [answer, Solver.run] at h
    split at h
    · cases h; rfl
    split at h
    · cases h; rfl
    obtain ⟨built, -, h⟩ := bind_eq_ok_iff.1 h
    split at h
    · cases h; rfl
    · exact settings_cluster h

/-- A call is answered as by a solver that has never been called. -/
theorem answer_fresh (s : Solver W) (budget : Nat) (call : Call W) :
    (s.answer budget call).map (·.1) = ((ofSettings s.settings).answer budget call).map (·.1) := by
  cases call with
  | network net seed => exact cluster_scratch s.settings budget .empty s.scratch net seed
  | graph g weight seed => exact run_scratch s.settings budget .empty s.scratch g weight seed

theorem serves_iff {calls : List (Call W)} {answers : List (Except Interrupt (Run W))} :
    s.Serves budget calls answers ↔
      answers = calls.map fun call => ((ofSettings s.settings).answer budget call).map (·.1) := by
  induction calls generalizing s answers with
  | nil => exact ⟨fun h => by cases h; rfl, fun h => h ▸ .nil s⟩
  | cons call calls ih =>
    rw [List.map_cons, ← answer_fresh]
    constructor
    · intro h
      cases h with
      | ended answer_eq rest =>
        rw [answer_eq, ih.1 rest, settings_answer answer_eq]
        rfl
      | interrupted answer_eq left rest =>
        rw [answer_eq, ih.1 rest]
        rfl
    · rintro rfl
      cases hanswer : s.answer budget call with
      | ok found => exact .ended hanswer (ih.2 (by rw [settings_answer hanswer]))
      | error interrupt => exact .interrupted hanswer s.scratch (ih.2 rfl)

end Solver

open Search in
/-- A solver that has been called before answers like a new one, a search does not depend on the
space that it is given, and at every point of it an offer leaves a clear tally. -/
theorem Solver.memoryless :
    (∀ (s : Solver W) (budget : Nat) (calls : List (Call W))
      (answers : List (Except Interrupt (Run W))), s.Serves budget calls answers ↔
        answers = calls.map fun call => ((ofSettings s.settings).answer budget call).map (·.1)) ∧
    (∀ (settings : Settings W) (budget : Nat) (net : Network W) (degrees : Degrees W)
      (roster : Roster W) (level : Nat) (scratch scratch' : Scratch W),
      (Search.run settings budget net degrees roster level scratch').map upshot =
        (Search.run settings budget net degrees roster level scratch).map upshot) ∧
    ∀ (net : Network W) (threshold : W) (roster : Roster W) (scratch : Scratch W) (vs : List Nat)
      (v : Nat), net.Built → 0 < net.degrees.total → roster.Indexes net.size →
      (∀ u ∈ vs, u < net.size) → v < net.size →
      ∃ moves w best tally, turns ⟨net, net.degrees, threshold⟩
          ⟨roster, scratch.tally.blank roster.capacity⟩ vs = .ok (moves, w) ∧
        (∀ listed, offer ⟨net, net.degrees, threshold⟩ w.roster { w.tally with adjacent := listed }
          v = .ok (best, tally)) ∧
        tally.Clear w.roster.capacity := by
  refine ⟨fun s budget calls answers => serves_iff, ?_, ?_⟩
  · intro settings budget net degrees roster level scratch scratch'
    rw [Search.run_scratch settings budget net degrees roster level scratch scratch']
    cases Search.run settings budget net degrees roster level scratch <;> rfl
  · intro net threshold roster scratch vs v hnet hpos hroster hvs hv
    exact exists_clear_offer (t := ⟨net, net.degrees, threshold⟩)
      ⟨⟨hnet.canonical, rfl, hpos⟩, hroster, Tally.clear_blank _ _⟩ hvs hv

namespace Solver

open Search in
/-- The space that is given is full of other entries. -/
theorem memoryless_pair :
    Network.pair.Built ∧ 0 < Network.pair.degrees.total ∧
    (Roster.singletons Network.pair.degrees).Indexes Network.pair.size ∧
    ∃ moves w best tally, turns ⟨Network.pair, Network.pair.degrees, 1 / 10⟩
        ⟨.singletons Network.pair.degrees, Tally.blank ⟨#[7], #[true], [5]⟩
          (Roster.singletons Network.pair.degrees).capacity⟩ [0] = .ok (moves, w) ∧
      (∀ listed, offer ⟨Network.pair, Network.pair.degrees, 1 / 10⟩ w.roster
        { w.tally with adjacent := listed } 1 = .ok (best, tally)) ∧
      tally.Clear w.roster.capacity := by
  have hpos : 0 < Network.pair.degrees.total := by decide +kernel
  have hr := Roster.indexes_alone Network.pair
  exact ⟨Network.built_pair, hpos, hr, memoryless.2.2 Network.pair (1 / 10) _
    ⟨#[], ⟨#[7], #[true], [5]⟩⟩ [0] 1 Network.built_pair hpos hr (by decide) (by decide)⟩

end Solver

end Communities
