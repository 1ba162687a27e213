import Communities.Proofs.EdgeList.Seed
import Communities.Proofs.Solver.TrueScore
import Communities.Proofs.Table

/-!
# From texts to a table

The steps that lead from the text of an edge list, and maybe that of a seed, to the table of a
hierarchy. In exact arithmetic nothing of the texts is left in what comes of them but the graph: not
the order of the lines, not the order of the ends of an edge, not the blanks, not the comments. The
labels show in the first column of the table only; as long as their order is kept, everything else
stays what it is.

* `pipeline`: the steps, one after the other up to the first that fails.
* `pipeline_presentation`: texts that present the same graph have the same hierarchy and the same
  table, and texts with other labels in the same order have the same hierarchy and the same table
  behind the labels.
-/

namespace Communities

open Text

/-- The step that fails. -/
inductive Setback (W : Type) where
  /-- The edge list cannot be read. -/
  | edges (e : TextError W)
  /-- The seed cannot be read. -/
  | seed (e : TextError W)
  /-- The solver rejects the problem. -/
  | run (e : Rejection W)

section Steps

variable {W : Type} [Weight W]

/-- Reads an edge list, and a seed if there is one, clusters the network and writes out the table. -/
def pipeline (weights : WeightText W) (settings : Settings W) (budget : Nat) (edges : Source)
    (seed : Option Source) : Except Interrupt (Except (Setback W) (Hierarchy W × String)) := do
  match EdgeList.read weights edges with
  | .error e => return .error (.edges e)
  | .ok es =>
    let net ← es.toNetwork
    match seed.mapM es.readSeed with
    | .error e => return .error (.seed e)
    | .ok labels =>
      let (run, _) ← (Solver.ofSettings settings).cluster budget net labels
      match run.result with
      | .error e => return .error (.run e)
      | .ok h => return .ok (h, ← es.table h)

variable {weights : WeightText W} {settings : Settings W} {budget : Nat} {edges : Source}
  {seed : Option Source} {h : Hierarchy W} {text : String}

/-- All steps succeed. -/
theorem pipeline_eq_ok_iff : pipeline weights settings budget edges seed = .ok (.ok (h, text)) ↔
    ∃ es net labels run s, EdgeList.read weights edges = .ok es ∧ es.toNetwork = .ok net ∧
      (seed.mapM es.readSeed : Except (TextError W) (Option (Array Nat))) = .ok labels ∧
      (Solver.ofSettings settings).cluster budget net labels = .ok (run, s) ∧ run.result = .ok h ∧
      es.table h = .ok text := by
  rw [pipeline]
  constructor
  · intro hok
    cases hread : EdgeList.read weights edges with
    | error e => rw [hread] at hok; cases hok
    | ok es =>
      rw [hread] at hok
      obtain ⟨net, hnet, hok⟩ := bind_eq_ok_iff.1 hok
      cases hseed : (seed.mapM es.readSeed : Except (TextError W) (Option (Array Nat))) with
      | error e => rw [hseed] at hok; cases hok
      | ok labels =>
        rw [hseed] at hok
        obtain ⟨⟨run, s⟩, hrun, hok⟩ := bind_eq_ok_iff.1 hok
        dsimp only at hok
        cases hresult : run.result with
        | error e => rw [hresult] at hok; cases hok
        | ok h' =>
          rw [hresult] at hok
          obtain ⟨text', htext, hok⟩ := bind_eq_ok_iff.1 hok
          cases hok
          exact ⟨es, net, labels, run, s, rfl, liftM_eq_ok_iff.1 hnet, hseed, hrun, hresult,
            liftM_eq_ok_iff.1 htext⟩
  · rintro ⟨es, net, labels, run, s, hread, hnet, hseed, hrun, hresult, htext⟩
    simp only [hread, hnet, hseed, hrun, hresult, htext, liftM_ok, ok_bind, pure_eq_ok]

end Steps

/-! ## Presentations -/

section Exact

variable {K : Type} [Field K] [LinearOrder K] {weights : WeightText K} {settings : Settings K}
  {budget : Nat} {edges edges' : Source} {seed seed' : Option Source} {es : EdgeList K}
  {h : Hierarchy K} {text : String} {f : Nat → Nat}
  {R S : List (List Char) → List (List Char) → Prop}

theorem pipeline_rewritten {cells : List (List String)}
    (hok : pipeline weights settings budget edges seed = .ok (.ok (h, text)))
    (hread : EdgeList.read weights edges = .ok es) (hcells : h.cells es.size = .ok cells)
    (hf : StrictMonoOn f {x | x ∈ es.vertices.values}) (hR : EdgeList.Redraws weights f R)
    (hS : ∀ fs fs' p, S fs fs' → EdgeList.named? fs = some p →
      EdgeList.named? fs' = some (f p.1, p.2))
    (hedges : edges.Rewritten R edges') (hseed : Option.Rel (Source.Rewritten S) seed seed') :
    pipeline weights settings budget edges' seed' =
      .ok (.ok (h, tableText h.levels.length (es.vertices.values.toList.map f) cells)) := by
  obtain ⟨_, net, labels, run, s, hread', hnet, hlabels, hrun, hresult, -⟩ :=
    pipeline_eq_ok_iff.1 hok
  obtain rfl : es = _ := Except.ok.inj (hread.symm.trans hread')
  obtain ⟨es', hes', hnet', hvalues⟩ := EdgeList.read_rewritten hread hf hR hedges
  have hlabels' : (seed'.mapM es'.readSeed : Except (TextError K) (Option (Array Nat))) =
      .ok labels := by
    cases hseed with
    | none => exact hlabels
    | some hseed =>
      obtain ⟨found, hfound, rfl⟩ := map_eq_ok_iff.1 hlabels
      have hfound' := EdgeList.readSeed_rewritten (EdgeList.pairwise_of_read hread)
        (EdgeList.pairwise_of_read hes') hvalues hf.injOn hS hseed hfound
      exact map_eq_ok_iff.2 ⟨found, hfound', rfl⟩
  refine pipeline_eq_ok_iff.2 ⟨es', net, labels, run, s, hes', hnet'.trans hnet, hlabels', hrun,
    hresult, ?_⟩
  rw [EdgeList.table_eq, EdgeList.size_of_values hvalues, hcells, hvalues]
  rfl

/-- Only the graph matters, and of the labels only their order. The texts may be rewritten line by
line, in any order, with the ends of an edge in either order and with any blanks and comments: the
hierarchy and the table stay the same. If the labels of the vertices are mapped in order, as `f` does
with those that occur, the hierarchy and all cells but those of the labels stay the same. -/
theorem pipeline_presentation
    (hok : pipeline weights settings budget edges seed = .ok (.ok (h, text))) :
    (∀ edges' seed', edges.Rewritten EdgeList.Swaps edges' →
      Option.Rel (Source.Rewritten Eq) seed seed' →
        pipeline weights settings budget edges' seed' = .ok (.ok (h, text))) ∧
    ∃ es cells, EdgeList.read weights edges = .ok es ∧ cells.length = es.size ∧
      text = tableText h.levels.length es.vertices.values.toList cells ∧
      ∀ f edges' seed', StrictMonoOn f {x | x ∈ es.vertices.values} →
        edges.Rewritten (Relabels f 2) edges' →
        Option.Rel (Source.Rewritten (Relabels f 1)) seed seed' →
          pipeline weights settings budget edges' seed' =
            .ok (.ok (h, tableText h.levels.length (es.vertices.values.toList.map f) cells)) := by
  obtain ⟨es, -, -, -, -, hread, -, -, -, -, htable⟩ := pipeline_eq_ok_iff.1 hok
  rw [EdgeList.table_eq] at htable
  obtain ⟨cells, hcells, rfl⟩ := map_eq_ok_iff.1 htable
  refine ⟨fun edges' seed' hedges hseed => ?_, es, cells, hread, Hierarchy.length_cells hcells, rfl,
    fun f edges' seed' hf hedges hseed => ?_⟩
  · have hsame := pipeline_rewritten hok hread hcells strictMonoOn_id
      (EdgeList.redraws_swaps weights) (by rintro fs _ p rfl hp; exact hp) hedges hseed
    rwa [List.map_id] at hsame
  · exact pipeline_rewritten hok hread hcells hf (EdgeList.redraws_relabels weights f)
      (fun fs fs' p h hp => EdgeList.named?_relabels h hp) hedges hseed

end Exact

/-- Two edges that share no node. -/
def Network.pairs : Network ℚ :=
  ⟨#[⟨1, [⟨1, 1⟩]⟩, ⟨1, [⟨0, 1⟩]⟩, ⟨1, [⟨3, 2⟩]⟩, ⟨1, [⟨2, 2⟩]⟩], 2⟩

/-- Texts that present two such edges and the best seed have one level, whatever the labels are. -/
private theorem exists_pipeline_pairs {edges seed text : String} {es : EdgeList ℚ}
    (hread : EdgeList.read .whole (.ofString edges) = .ok es) (hnet : es.toNetwork = .ok .pairs)
    (hseed : es.readSeed (.ofString seed) = .ok #[3, 3, 4, 4])
    (htable : ∀ h : Hierarchy ℚ, h.partitions = .ok [#[0, 0, 1, 1]] → es.table h = .ok text) :
    ∃ h, pipeline .whole ⟨1 / 10, .multilevel none, .ascending, none, false⟩ 3 (.ofString edges)
        (some (.ofString seed)) = .ok (.ok (h, text)) ∧
      h.levels = [⟨#[0, 0, 1, 1], 4 / 9, 1, 0⟩] := by
  have hlevels : ((Solver.ofSettings ⟨1 / 10, .multilevel none, .ascending, none, false⟩ :
      Solver ℚ).cluster 3 .pairs (some #[3, 3, 4, 4])).toOption.bind
        (fun x => x.1.result.toOption.map (·.levels)) =
      some [⟨#[0, 0, 1, 1], 4 / 9, 1, 0⟩] := by
    rw [Weight.ofField_rat]
    cbv
  obtain ⟨run, s, h, hrun, hresult, hlevels⟩ := Solver.exists_answer hlevels
  have hpartitions : h.partitions = .ok [#[0, 0, 1, 1]] := by
    obtain ⟨levels, coarse⟩ := h
    obtain rfl : levels = _ := hlevels
    cbv
  have hlabels : ((some (.ofString seed)).mapM es.readSeed :
      Except (TextError ℚ) (Option (Array Nat))) = .ok (some #[3, 3, 4, 4]) :=
    map_eq_ok_iff.2 ⟨_, hseed, rfl⟩
  exact ⟨h, pipeline_eq_ok_iff.2 ⟨es, .pairs, _, run, s, hread, hnet, hlabels, hrun, hresult,
    htable h hpartitions⟩, hlevels⟩

theorem pipeline_pairs :
    ∃ h : Hierarchy ℚ, pipeline .whole ⟨1 / 10, .multilevel none, .ascending, none, false⟩ 3
        (.ofString "1 2\n5 9 2") (some (.ofString "1 3\n2 3\n5 4\n9 4")) =
        .ok (.ok (h, "vertex,level0\n1,0\n2,0\n5,1\n9,1\n")) ∧
      h.levels = [⟨#[0, 0, 1, 1], 4 / 9, 1, 0⟩] := by
  have hvalues : (EdgeList.ofLabelled [(⟨1, 2, 1⟩ : Edge ℚ), ⟨5, 9, 2⟩]).vertices.values =
      #[1, 2, 5, 9] := by cbv
  refine @exists_pipeline_pairs _ _ _ (.ofLabelled [⟨1, 2, 1⟩, ⟨5, 9, 2⟩]) ?_ (by cbv) ?_
    fun h hpartitions => ?_
  · rw [EdgeList.read, Source.mapRecords_ofString, Weight.ofField_rat]
    cbv
  · rw [EdgeList.readSeed, Source.foldRecords_ofString]
    cbv
  · rw [EdgeList.table, hpartitions, hvalues]
    rfl

theorem pipeline_pairs_raised :
    ∃ h : Hierarchy ℚ, pipeline .whole ⟨1 / 10, .multilevel none, .ascending, none, false⟩ 3
        (.ofString "11 12\n15 19 2") (some (.ofString "11 3\n12 3\n15 4\n19 4")) =
        .ok (.ok (h, "vertex,level0\n11,0\n12,0\n15,1\n19,1\n")) ∧
      h.levels = [⟨#[0, 0, 1, 1], 4 / 9, 1, 0⟩] := by
  have hvalues : (EdgeList.ofLabelled [(⟨11, 12, 1⟩ : Edge ℚ), ⟨15, 19, 2⟩]).vertices.values =
      #[11, 12, 15, 19] := by cbv
  refine @exists_pipeline_pairs _ _ _ (.ofLabelled [⟨11, 12, 1⟩, ⟨15, 19, 2⟩]) ?_ (by cbv) ?_
    fun h hpartitions => ?_
  · rw [EdgeList.read, Source.mapRecords_ofString, Weight.ofField_rat]
    cbv
  · rw [EdgeList.readSeed, Source.foldRecords_ofString]
    cbv
  · rw [EdgeList.table, hpartitions, hvalues]
    rfl

/-- Two edges, written in another way and then with other labels. -/
theorem pipeline_presentation_edges :
    ∃ (settings : Settings ℚ) (h : Hierarchy ℚ),
      settings = ⟨1 / 10, .multilevel none, .ascending, none, false⟩ ∧
      pipeline .whole settings 3 (.ofString "1 2\n5 9 2") (some (.ofString "1 3\n2 3\n5 4\n9 4")) =
        .ok (.ok (h, "vertex,level0\n1,0\n2,0\n5,1\n9,1\n")) ∧
      pipeline .whole settings 3 (.ofString "9 5 2# swapped\n\n 1\t2")
          (some (.ofString "9 4\n2  3\n5 4\n1 3 #\n")) =
        .ok (.ok (h, "vertex,level0\n1,0\n2,0\n5,1\n9,1\n")) ∧
      pipeline .whole settings 3 (.ofString "11 12\n15 19 2")
          (some (.ofString "11 3\n12 3\n15 4\n19 4")) =
        .ok (.ok (h, "vertex,level0\n11,0\n12,0\n15,1\n19,1\n")) := by
  obtain ⟨h, hok, -⟩ := pipeline_pairs
  refine ⟨_, h, rfl, hok, ?_⟩
  obtain ⟨hrewritten, es, cells, -, -, -, hrelabelled⟩ := pipeline_presentation hok
  have hedges : (Source.ofString "1 2\n5 9 2").Holds [[['1'], ['2']], [['5'], ['9'], ['2']]] :=
    Source.holds_iff.2 ⟨_, rfl, by decide⟩
  have hseed : (Source.ofString "1 3\n2 3\n5 4\n9 4").Holds
      [[['1'], ['3']], [['2'], ['3']], [['5'], ['4']], [['9'], ['4']]] :=
    Source.holds_iff.2 ⟨_, rfl, by decide⟩
  have hedges' : (Source.ofString "9 5 2# swapped\n\n 1\t2").Holds
      [[['9'], ['5'], ['2']], [['1'], ['2']]] := Source.holds_iff.2 ⟨_, rfl, by decide⟩
  have hseed' : (Source.ofString "9 4\n2  3\n5 4\n1 3 #\n").Holds
      [[['9'], ['4']], [['2'], ['3']], [['5'], ['4']], [['1'], ['3']]] :=
    Source.holds_iff.2 ⟨_, rfl, by decide⟩
  have hedges'' : (Source.ofString "11 12\n15 19 2").Holds
      [[['1', '1'], ['1', '2']], [['1', '5'], ['1', '9'], ['2']]] :=
    Source.holds_iff.2 ⟨_, rfl, by decide⟩
  have hseed'' : (Source.ofString "11 3\n12 3\n15 4\n19 4").Holds
      [[['1', '1'], ['3']], [['1', '2'], ['3']], [['1', '5'], ['4']], [['1', '9'], ['4']]] :=
    Source.holds_iff.2 ⟨_, rfl, by decide⟩
  have hraised : ∀ (field field' : List Char) (n : Nat), number? field = some n →
      number? field' = some (n + 10) →
        ∀ x, number? field = some x → number? field' = some (x + 10) := by
    intro field field' n hn hn' x hx
    obtain rfl : n = x := Option.some.inj (hn.symm.trans hx)
    exact hn'
  have hedgesRaised : (Source.ofString "1 2\n5 9 2").Rewritten (Relabels (· + 10) 2)
      (.ofString "11 12\n15 19 2") :=
    ⟨_, _, _, hedges, .cons ⟨by rfl, .cons (hraised _ _ 1 (by decide) (by decide))
      (.cons (hraised _ _ 2 (by decide) (by decide)) .nil)⟩ (.cons ⟨by rfl,
        .cons (hraised _ _ 5 (by decide) (by decide))
          (.cons (hraised _ _ 9 (by decide) (by decide)) .nil)⟩ .nil), .refl _, hedges''⟩
  have hseedRaised : (Source.ofString "1 3\n2 3\n5 4\n9 4").Rewritten (Relabels (· + 10) 1)
      (.ofString "11 3\n12 3\n15 4\n19 4") :=
    ⟨_, _, _, hseed, .cons ⟨by rfl, .cons (hraised _ _ 1 (by decide) (by decide)) .nil⟩
      (.cons ⟨by rfl, .cons (hraised _ _ 2 (by decide) (by decide)) .nil⟩
        (.cons ⟨by rfl, .cons (hraised _ _ 5 (by decide) (by decide)) .nil⟩
          (.cons ⟨by rfl, .cons (hraised _ _ 9 (by decide) (by decide)) .nil⟩ .nil))), .refl _,
      hseed''⟩
  have hsame := hrelabelled (· + 10) _ _ (fun _ _ _ _ hlt => Nat.add_lt_add_right hlt 10)
    hedgesRaised (.some hseedRaised)
  obtain ⟨h', hok', -⟩ := pipeline_pairs_raised
  obtain ⟨rfl, htable⟩ := Prod.mk.inj (Except.ok.inj (Except.ok.inj (hok'.symm.trans hsame)))
  rw [← htable] at hsame
  exact ⟨hrewritten _ _ ⟨_, _, _, hedges, .cons (.inl rfl) (.cons (.inr ⟨_, _, _, rfl, rfl⟩) .nil),
    .swap .., hedges'⟩ (.some ⟨_, _, _, hseed, List.forall₂_refl _, by decide, hseed'⟩), hsame⟩

end Communities
