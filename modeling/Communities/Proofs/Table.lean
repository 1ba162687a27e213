import Communities.Proofs.Loop
import Communities.Table

/-!
# Tables line by line

A table is a line of titles and a line for each vertex, and only the first cell of such a line shows
the label of the vertex. What the other cells show depends on the ids alone.

* `Hierarchy.forall₂_partitions`: there is a partition for each level.
* `Hierarchy.cells`: what is behind the labels.
* `tableText`: the text of given labels and cells; `EdgeList.table_eq`: every table is such a text.
* `EdgeList.exists_table`: a hierarchy over the vertices of an edge list can be written out.
-/

namespace Communities

/-- There is a partition for each level, and no other. -/
theorem Hierarchy.forall₂_partitions {W : Type} {h : Hierarchy W} {partitions : List (Array Nat)}
    (hp : h.partitions = .ok partitions) :
    List.Forall₂ (fun k p => h.partitionAt k = .ok (some p)) (List.range h.levels.length)
      partitions :=
  forall₂_of_filterMapM hp fun k hk x hx => by
    have hk : k < h.levels.length := List.mem_range.1 hk
    rw [partitionAt] at hx
    split at hx
    · next hnil =>
      rw [List.take_eq_nil_iff] at hnil
      rcases hnil with hnil | hnil
      · omega
      · simp [hnil] at hk
    · rw [if_pos hk] at hx
      obtain ⟨labels, -, rfl⟩ := map_eq_ok_iff.1 hx
      rfl

theorem Hierarchy.length_partitions {W : Type} {h : Hierarchy W} {partitions : List (Array Nat)}
    (hp : h.partitions = .ok partitions) : partitions.length = h.levels.length := by
  rw [← (forall₂_partitions hp).length_eq, List.length_range]

/-- The cells behind the labels: for each of `n` vertices its community at each level. -/
def Hierarchy.cells {W : Type} (h : Hierarchy W) (n : Nat) : Except Fault (List (List String)) := do
  let partitions ← h.partitions
  (List.range n).mapM fun id => partitions.mapM fun p => do return toString (← fetch p id)

theorem Hierarchy.length_cells {W : Type} {h : Hierarchy W} {n : Nat} {cells : List (List String)}
    (hcells : h.cells n = .ok cells) : cells.length = n := by
  obtain ⟨_, -, hcells⟩ := bind_eq_ok_iff.1 hcells
  rw [← (mapM_eq_ok_iff.1 hcells).length_eq, List.length_range]

/-- The text of a table with the given labels and the cells behind them. -/
def tableText (levels : Nat) (labels : List Nat) (cells : List (List String)) : String :=
  .join ((tableTitles levels :: labels.zipWith (fun label row => toString label :: row) cells).map
    tableLine)

private theorem mapM_tableCells (partitions : List (Array Nat)) (labels : List Nat) (start : Nat) :
    (labels.zipIdx start).mapM (fun x => tableCells partitions x.1 x.2) =
      ((List.range' start labels.length).mapM fun id => partitions.mapM fun p => do
        return toString (← fetch p id)).map
          (labels.zipWith fun label row => toString label :: row) := by
  induction labels generalizing start with
  | nil => rfl
  | cons label labels ih =>
    rw [List.zipIdx_cons, List.mapM_cons, ih, List.length_cons, List.range'_succ, List.mapM_cons,
      tableCells, bind_assoc, map_bind_eq]
    refine bind_congr fun row => ?_
    rw [pure_eq_ok, ok_bind, bind_map_eq, map_bind_eq]
    rfl

namespace EdgeList

variable {W : Type} {es : EdgeList W}

theorem table_eq (h : Hierarchy W) : es.table h =
    (h.cells es.size).map (tableText h.levels.length es.vertices.values.toList) := by
  rw [table, Hierarchy.cells]
  cases hpartitions : h.partitions with
  | error e => rfl
  | ok partitions =>
    have hrows := mapM_tableCells partitions es.vertices.values.toList 0
    have hsize : es.vertices.values.toList.length = es.size := Array.length_toList
    rw [hsize, ← List.range_eq_range'] at hrows
    rw [ok_bind, ok_bind, Hierarchy.length_partitions hpartitions]
    refine (congrArg (· >>= _) hrows).trans ?_
    rw [bind_map_eq]
    cases (List.range es.size).mapM fun id => partitions.mapM fun p => do
      return toString (← fetch p id) <;> rfl

theorem exists_table {h : Hierarchy W}
    (hh : ∀ k < h.levels.length, ∃ labels, h.partitionAt k = .ok (some labels) ∧
      labels.size = es.size) : ∃ text, es.table h = .ok text := by
  obtain ⟨partitions, hpartitions, hsize⟩ :=
    exists_filterMapM fun k hk => hh k (List.mem_range.1 hk)
  obtain ⟨cells, hcells⟩ : ∃ cells, (List.range es.size).mapM (fun id => partitions.mapM fun p => do
      return toString (← fetch p id)) = Except.ok cells :=
    exists_mapM fun id hid => exists_mapM fun p hp => ⟨_, by
      rw [fetch_of_lt ((hsize p hp).symm ▸ List.mem_range.1 hid)]
      rfl⟩
  rw [table_eq, Hierarchy.cells, Hierarchy.partitions, hpartitions, ok_bind, hcells]
  exact ⟨_, rfl⟩

end EdgeList

end Communities
