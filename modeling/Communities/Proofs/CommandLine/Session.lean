import Communities.CommandLine.Session
import Communities.Proofs.CommandLine
import Communities.Proofs.CommandLine.Folder
import Communities.Proofs.Pipeline
import Communities.Proofs.Solver.Shape

/-!
# The program is the pipeline

What the program does with its arguments is to take the steps from the texts to a table, and it
takes all of them or reports the one that fails. If all succeed it prints a line for each level and
writes the table; the number of communities in such a line is counted up to the largest label,
which is right as no label is skipped. If one fails nothing is printed and nothing is written.

* `lt_communityCount_iff`: what is counted; `communityCount_eq`: it is the number of communities for
  every level of a hierarchy that comes from a text.
* `command_map`: a command answers what the pipeline comes to.
* `Follows`: what the program does for the pipeline; `execute_pipeline`: it does so for all
  arguments and all files.
-/

namespace Communities

open Text

variable {W : Type}

/-- The failure that a setback is reported as, with the path of the file that is to blame. -/
def Setback.failure [Weight W] (weights : WeightText W) (input seed : String) :
    Setback W → CommandLine.Failure
  | .edges e => .file input (e.message weights)
  | .seed e => .file seed (e.message weights)
  | .run e => .rejected (e.message weights.plain)

namespace CommandLine

/-! ## Counting communities -/

private theorem lt_foldl_max_iff (ls : List Nat) (n x : Nat) :
    x < ls.foldl (fun n label => max n (label + 1)) n ↔ x < n ∨ ∃ l ∈ ls, x ≤ l := by
  induction ls generalizing n with
  | nil => simp
  | cons l ls ih =>
    rw [List.foldl_cons, ih, lt_max_iff, Nat.lt_succ_iff, List.exists_mem_cons_iff, or_assoc]

theorem lt_communityCount_iff {labels : Array Nat} {x : Nat} :
    x < communityCount labels ↔ ∃ l ∈ labels, x ≤ l := by
  rw [communityCount, ← Array.foldl_toList, lt_foldl_max_iff]
  simp

/-- Where no label is skipped, they are counted. -/
theorem communityCount_eq {labels : Array Nat} {c : Nat} (h : ∀ x, x ∈ labels ↔ x < c) :
    communityCount labels = c := by
  refine eq_of_forall_lt_iff fun x => lt_communityCount_iff.trans ⟨?_, fun hx => ?_⟩
  · rintro ⟨l, hl, hx⟩
    exact hx.trans_lt ((h l).1 hl)
  · exact ⟨x, (h x).2 hx, le_rfl⟩

/-- The communities of a level that a text leads to are counted right, and can be counted in 64
bits. -/
theorem communityCount_level [Weight W] {weights : WeightText W} {settings : Settings W}
    {budget : Nat} {edges : Source} {given : Option Source} {h : Hierarchy W} {text : String}
    (hok : pipeline weights settings budget edges given = .ok (.ok (h, text))) :
    ∀ l ∈ h.levels, communityCount l.labels = l.communities ∧
      ∀ x ∈ l.labels, x + 1 < countBound := by
  obtain ⟨es, net, seed, run, s, hread, hnet, -, hrun, hh, -⟩ := pipeline_eq_ok_iff.1 hok
  have hsize : net.size = es.size := Network.size_ofEdges hnet
  by_cases hedges : net.edgeCount = 0
  · -- There are no vertices, so there is no label either.
    have hnone : net.size = 0 := hsize.trans (EdgeList.size_of_edgeless hread hnet hedges)
    obtain rfl := Solver.cluster_nodeless hnone hedges hrun hh
    intro l hl
    obtain rfl := List.mem_singleton.1 hl
    exact ⟨rfl, by simp⟩
  · have hwell := Solver.cluster_wellFormed (.ofEdges hnet) hedges hrun hh
    intro l hl
    have hmem := (hwell.dense l hl).mem_labels
    have hle := hwell.communities_le hl
    refine ⟨communityCount_eq hmem, fun x hx => ?_⟩
    have hlt := (hmem x).1 hx
    have hfew := hsize ▸ (EdgeList.ends_of_read hread).1
    unfold idBound at hfew
    unfold countBound
    omega

/-! ## Commands -/

section Commands

variable [Weight W] {weights : WeightText W} {settings : Settings W} {budget : Nat}
  {files : String → Source} {input out : String} {partition : Option String}

/-- What a command prints and answers, by what the pipeline comes to. -/
def answer (weights : WeightText W) (input out : String) (partition : Option String) :
    Except (Setback W) (Hierarchy W × String) → List String × Except Failure Output
  | .error setback => ([], .error (setback.failure weights input (partition.getD "")))
  | .ok (h, text) => (levelLines weights h, .ok ⟨out, text⟩)

omit [Weight W] in
private theorem readSeed_eq (es : EdgeList W) : readSeed weights files es partition =
    ((partition.map files).mapM es.readSeed).mapError fun e =>
      .file (partition.getD "") (e.message weights) := by
  cases partition with
  | none => rfl
  | some path =>
    rw [readSeed, Option.map_some, Option.mapM_some]
    cases es.readSeed (files path) <;> rfl

variable (weights settings budget files input out partition) in
/-- A command answers what the pipeline comes to. -/
theorem command_map : (command weights settings budget files input out partition).map
    (fun o => (o.lines, o.result)) =
      (pipeline weights settings budget (files input) (partition.map files)).map
        (answer weights input out partition) := by
  rw [command, pipeline, readEdges]
  cases EdgeList.read weights (files input) with
  | error e => rfl
  | ok es =>
    have hedges : Except.mapError (fun e => Failure.file input (TextError.message weights e))
        (.ok es) = .ok es := rfl
    simp only [hedges, map_bind_eq]
    refine bind_congr fun net => ?_
    rw [readSeed_eq]
    cases (partition.map files).mapM es.readSeed with
    | error e => rfl
    | ok seed =>
      simp only [Except.mapError, clusterEdges, bind_assoc, map_bind_eq]
      refine bind_congr fun found => ?_
      cases found.1.result with
      | error e => rfl
      | ok h =>
        dsimp only
        cases es.table h <;> rfl

theorem command_eq_error_iff {e : Interrupt} :
    command weights settings budget files input out partition = .error e ↔
      pipeline weights settings budget (files input) (partition.map files) = .error e := by
  rw [← map_eq_error_iff (f := fun o => (o.lines, o.result)), command_map, map_eq_error_iff]

theorem exists_command (out : String) {found : Except (Setback W) (Hierarchy W × String)}
    (h : pipeline weights settings budget (files input) (partition.map files) = .ok found) :
    ∃ log, command weights settings budget files input out partition =
      .ok ⟨log, (answer weights input out partition found).1,
        (answer weights input out partition found).2⟩ := by
  have hmap := command_map weights settings budget files input out partition
  rw [h] at hmap
  obtain ⟨⟨log, lines, result⟩, hcommand, hanswer⟩ := map_eq_ok_iff.1 hmap
  rw [← hanswer]
  exact ⟨log, hcommand⟩

end Commands

/-! ## Reports -/

/-- The line about a level, with the number of its distinct labels. -/
def levelReport [Weight W] (weights : WeightText W) (number : Nat) (l : Level W) : String :=
  let found := s!"{l.communities} communities, modularity {weights.fixed l.modularity}"
  s!"level {number}: {found} ({l.moves} moves, {l.sweeps} sweeps)"

/-- The program has done all there is to do: it has printed a line for each level and written the
table to its file. -/
structure Report.Done [Weight W] (r : Report) (weights : WeightText W) (folder : Folder)
    (out : String) (h : Hierarchy W) (text : String) : Prop where
  /-- The exit code is that of a success. -/
  exitCode_eq : r.exitCode = 0
  /-- There is no failure. -/
  failure_eq : r.failure = none
  /-- Each level has a line. -/
  lines_eq : r.lines = h.levels.mapIdx (levelReport weights)
  /-- The table can be read from its file. -/
  text_eq : r.folder.open? out = .ofString text
  /-- No other file is touched. -/
  others : ∀ name, folder.resolve out ≠ .ok name →
    r.folder.files.lookup name = folder.files.lookup name

/-- The program has done nothing but report a failure. -/
structure Report.Failed (r : Report) (folder : Folder) (failure : Failure) : Prop where
  /-- The exit code is that of a failure. -/
  exitCode_eq : r.exitCode = 1
  /-- The failure is reported. -/
  failure_eq : r.failure = some failure
  /-- Nothing is printed. -/
  lines_eq : r.lines = []
  /-- No file is touched. -/
  folder_eq : r.folder = folder

variable [Weight W] {weights : WeightText W} {threshold : W} {budget : Nat} {folder : Folder}
  {filter : Option String}

theorem levelLines_eq {h : Hierarchy W}
    (hcount : ∀ l ∈ h.levels, communityCount l.labels = l.communities) :
    levelLines weights h = h.levels.mapIdx (levelReport weights) := by
  rw [levelLines, List.mapIdx_eq_zipIdx_map]
  refine List.map_congr_left fun ⟨l, k⟩ hl => ?_
  simp only [levelLine, levelReport, hcount l (List.fst_mem_of_mem_zipIdx hl)]

omit [Weight W] in
/-- Arguments that are accepted name an input. -/
theorem Options.exists_input {args : List String} {o : Options W} (h : parse weights args = .ok o) :
    ∃ input, o.input = some input := by
  obtain ⟨scanned, -, h⟩ := bind_eq_ok_iff.1 h
  split at h
  · next hinput =>
    cases h
    exact Option.isSome_iff_exists.1 hinput
  · cases h

omit [Weight W] in
theorem Options.settings_eq (o : Options W) (threshold : W) : o.settings threshold =
    { threshold := o.threshold.getD threshold
      levels := if o.multilevel then .multilevel o.maxLevels else .single
      order := o.shuffle.elim .ascending fun seed => .shuffled (.ofNat seed)
      maxSweeps := o.maxSweeps
      verbose := o.verbose } := by
  rw [settings]
  cases o.shuffle <;> rfl

section Execute

variable {args : List String} {o : Options W} {input : String} {h : Hierarchy W} {text : String}

theorem execute_eq (hargs : Options.parse weights args = .ok o) (hinput : o.input = some input) :
    execute weights threshold budget folder filter args =
      (command weights (o.settings threshold) budget folder.open? input (o.out.getD defaultOut)
        o.partition).map fun outcome =>
          outcome.finish (shownLog filter o.verbose outcome.log) folder := by
  rw [execute, hargs]
  dsimp only
  rw [Options.command, hinput, Option.getD_some]
  cases command weights (o.settings threshold) budget folder.open? input (o.out.getD defaultOut)
    o.partition <;> rfl

theorem execute_eq_error_iff (hargs : Options.parse weights args = .ok o)
    (hinput : o.input = some input) {e : Interrupt} :
    execute weights threshold budget folder filter args = .error e ↔
      pipeline weights (o.settings threshold) budget (folder.open? input)
        (o.partition.map folder.open?) = .error e := by
  rw [execute_eq hargs hinput, map_eq_error_iff, command_eq_error_iff]

theorem execute_failed (hargs : Options.parse weights args = .ok o) (hinput : o.input = some input)
    {setback : Setback W} (h : pipeline weights (o.settings threshold) budget (folder.open? input)
      (o.partition.map folder.open?) = .ok (.error setback)) :
    ∃ r, execute weights threshold budget folder filter args = .ok r ∧
      r.Failed folder (setback.failure weights input (o.partition.getD "")) := by
  obtain ⟨log, hcommand⟩ := exists_command (o.out.getD defaultOut) h
  rw [execute_eq hargs hinput, hcommand]
  exact ⟨_, rfl, rfl, rfl, rfl, rfl⟩

theorem execute_done (hargs : Options.parse weights args = .ok o) (hinput : o.input = some input)
    (hwritable : ∃ after, folder.write (o.out.getD defaultOut) text = .ok after)
    (hok : pipeline weights (o.settings threshold) budget (folder.open? input)
      (o.partition.map folder.open?) = .ok (.ok (h, text))) :
    ∃ r, execute weights threshold budget folder filter args = .ok r ∧
      r.Done weights folder (o.out.getD defaultOut) h text := by
  obtain ⟨log, hcommand⟩ := exists_command (o.out.getD defaultOut) hok
  obtain ⟨after, hafter⟩ := hwritable
  refine ⟨⟨0, levelLines weights h, shownLog filter o.verbose log, none, after⟩, ?_, rfl, rfl,
    levelLines_eq fun l hl => (communityCount_level hok l hl).1, Folder.open?_write hafter,
    fun name => Folder.lookup_write hafter⟩
  rw [execute_eq hargs hinput, hcommand]
  simp only [Except.map, Outcome.finish, answer, hafter]

/-- The exit code tells whether the pipeline comes to its end. -/
theorem exitCode_eq_zero_iff (hargs : Options.parse weights args = .ok o)
    (hinput : o.input = some input)
    (hwritable : ∀ text, ∃ after, folder.write (o.out.getD defaultOut) text = .ok after) {r : Report}
    (hr : execute weights threshold budget folder filter args = .ok r) :
    r.exitCode = 0 ↔ ∃ h text, pipeline weights (o.settings threshold) budget (folder.open? input)
      (o.partition.map folder.open?) = .ok (.ok (h, text)) := by
  cases houtcome : pipeline weights (o.settings threshold) budget (folder.open? input)
    (o.partition.map folder.open?) with
  | error e =>
    rw [(execute_eq_error_iff hargs hinput).2 houtcome] at hr
    cases hr
  | ok found =>
    cases found with
    | error setback =>
      obtain ⟨r', hr', hfailed⟩ := execute_failed hargs hinput houtcome
      obtain rfl := Except.ok.inj (hr.symm.trans hr')
      exact iff_of_false (by simp [hfailed.exitCode_eq]) (by simp)
    | ok answer =>
      obtain ⟨h, text⟩ := answer
      obtain ⟨r', hr', hdone⟩ := execute_done hargs hinput (hwritable text) houtcome
      obtain rfl := Except.ok.inj (hr.symm.trans hr')
      exact iff_of_true hdone.exitCode_eq ⟨h, text, rfl⟩

end Execute

/-- The program does what the pipeline comes to with the files and the settings that its options
stand for: all of it, or nothing but reporting what has failed first. -/
structure Follows (weights : WeightText W) (threshold : W) (budget : Nat) (folder : Folder)
    (filter : Option String) (args : List String) (o : Options W) (input : String)
    (outcome : Except Interrupt (Except (Setback W) (Hierarchy W × String))) : Prop where
  /-- The options name the file with the edges. -/
  input_eq : o.input = some input
  /-- The pipeline has the settings of the options, with the given threshold if they have none. -/
  outcome_eq : outcome = pipeline weights
    { threshold := o.threshold.getD threshold
      levels := if o.multilevel then .multilevel o.maxLevels else .single
      order := o.shuffle.elim .ascending fun seed => .shuffled (.ofNat seed)
      maxSweeps := o.maxSweeps
      verbose := o.verbose }
    budget (folder.open? input) (o.partition.map folder.open?)
  /-- The program ends if the pipeline does. -/
  eq_error_iff : ∀ e,
    execute weights threshold budget folder filter args = .error e ↔ outcome = .error e
  /-- No fault keeps it from ending. -/
  ne_fault : ∀ fault, outcome ≠ .error (.fault fault)
  /-- The exit code tells whether all has succeeded. -/
  exitCode_iff : ∀ r, execute weights threshold budget folder filter args = .ok r →
    (r.exitCode = 0 ↔ ∃ h text, outcome = .ok (.ok (h, text)))
  /-- If it has, the levels are printed and the table is written. -/
  done : ∀ h text, outcome = .ok (.ok (h, text)) →
    ∃ r, execute weights threshold budget folder filter args = .ok r ∧
      r.Done weights folder (o.out.getD defaultOut) h text
  /-- The communities in a line can be counted in 64 bits. -/
  label_lt : ∀ h text, outcome = .ok (.ok (h, text)) →
    ∀ l ∈ h.levels, ∀ x ∈ l.labels, x + 1 < countBound
  /-- If it has not, the failure is reported. -/
  failed : ∀ setback, outcome = .ok (.error setback) →
    ∃ r, execute weights threshold budget folder filter args = .ok r ∧
      r.Failed folder (setback.failure weights input (o.partition.getD ""))

theorem exists_follows {args : List String} {o : Options W} (threshold : W) (budget : Nat)
    (filter : Option String) (hargs : Options.parse weights args = .ok o)
    (hwritable : ∀ text, ∃ after, folder.write (o.out.getD defaultOut) text = .ok after) :
    ∃ input outcome, Follows weights threshold budget folder filter args o input outcome := by
  obtain ⟨input, hinput⟩ := Options.exists_input hargs
  refine ⟨input, pipeline weights (o.settings threshold) budget (folder.open? input)
    (o.partition.map folder.open?), ?_⟩
  exact
    { input_eq := hinput
      outcome_eq := by rw [Options.settings_eq]
      eq_error_iff := fun e => execute_eq_error_iff hargs hinput
      ne_fault := fun fault hfault =>
        (command_faultless weights (o.settings threshold) budget folder.open? input
          (o.out.getD defaultOut) o.partition).ne_fault fault (command_eq_error_iff.2 hfault)
      exitCode_iff := fun r => exitCode_eq_zero_iff hargs hinput hwritable
      done := fun h text => execute_done hargs hinput (hwritable text)
      label_lt := fun h text hok l hl => (communityCount_level hok l hl).2
      failed := fun setback => execute_failed hargs hinput }

end CommandLine

end Communities
