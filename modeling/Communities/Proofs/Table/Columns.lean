import Communities.Proofs.EdgeList
import Communities.Proofs.Solver.Shape
import Communities.Proofs.Table
import Communities.Proofs.Text.Numeral

/-!
# Tables are read back

A table keeps the vertices and all partitions of a hierarchy: whoever splits it at line ends and
commas and reads the numbers has the labels, the number of levels and the partition at each of them.
From left to right its columns only merge.

* `sheet` and `readSheet`: rows of numbers as a text, and back; `readSheet_sheet`: nothing is lost;
  `map_toList_tableTitles`: what stands above the rows.
* `Hierarchy.Layered`: a partition of the vertices at each level, each coarser than the ones before
  it; `EdgeList.Solved.layered`: every answer of the solver is of this form.
* `EdgeList.Tabulates`: which rows a table shows; `EdgeList.Tabulates.unique`: there is nothing else
  that they can stand for.
* `EdgeList.table_readable`: every table of an answer can be read back.
-/

namespace Communities

open Text

variable {W : Type}

/-! ## Sheets -/

/-- The text of a table with the given rows of numbers. -/
def sheet (levels : Nat) (rows : List (List Nat)) : String :=
  .join ((tableTitles levels :: rows.map (·.map toString)).map tableLine)

/-- The digits of a number. -/
def digits (n : Nat) : List Char := (toString n).toList

/-- The cells of a text, line by line, where a line ends with its line end. -/
def cellsOf (text : String) : List (List (List Char)) :=
  (text.toList.splitOn '\n').dropLast.map (·.splitOn ',')

/-- The number of levels and the rows of numbers that a text shows. -/
def readSheet (text : String) : Option (Nat × List (List Nat)) :=
  match cellsOf text with
  | titles :: rows => do return (titles.length - 1, ← rows.mapM (List.mapM number?))
  | [] => none

/-- The text fits into one cell: it has no comma and no line end. -/
def IsCell (cs : List Char) : Prop := ',' ∉ cs ∧ '\n' ∉ cs

theorem isCell_digits (n : Nat) : IsCell (digits n) := by
  have hdigit : ∀ d ∈ digits n, d.isDigit := fun d hd => by
    rw [digits, Nat.toString_eq_ofList_toDigits, String.toList_ofList] at hd
    exact Nat.isDigit_of_mem_toDigits (by decide) (by decide) hd
  exact ⟨fun h => absurd (hdigit _ h) (by decide), fun h => absurd (hdigit _ h) (by decide)⟩

/-- The first column is that of the vertices, and each level has one with its number. -/
theorem map_toList_tableTitles (levels : Nat) : (tableTitles levels).map String.toList =
    "vertex".toList :: (List.range levels).map fun k => "level".toList ++ digits k := by
  rw [tableTitles, List.map_cons, List.map_map]
  exact congrArg _ (List.map_congr_left fun k _ => String.toList_append)

theorem isCell_title {levels : Nat} {title : String} (h : title ∈ tableTitles levels) :
    IsCell title.toList := by
  have hmem : title.toList ∈ (tableTitles levels).map String.toList := List.mem_map_of_mem h
  rw [map_toList_tableTitles, List.mem_cons, List.mem_map] at hmem
  obtain htitle | ⟨k, -, htitle⟩ := hmem
  · rw [htitle]
    exact ⟨by decide, by decide⟩
  · obtain ⟨hcomma, hend⟩ := isCell_digits k
    rw [← htitle]
    exact ⟨by simp [hcomma], by simp [hend]⟩

/-- The characters of a line before its end. -/
def lineText (cells : List String) : List Char := [','].intercalate (cells.map String.toList)

theorem notMem_lineText {cells : List String} (h : ∀ cell ∈ cells, IsCell cell.toList) :
    '\n' ∉ lineText cells := by
  induction cells with
  | nil => simp [lineText]
  | cons cell cells ih =>
    obtain ⟨⟨-, hcell⟩, hcells⟩ := List.forall_mem_cons.1 h
    cases cells with
    | nil => simpa [lineText] using hcell
    | cons next rest =>
      have hsplit : lineText (cell :: next :: rest) =
          cell.toList ++ [','] ++ lineText (next :: rest) := List.intercalate_cons_cons
      rw [hsplit]
      simp [hcell, ih hcells]

theorem toList_tableLine (cells : List String) :
    (tableLine cells).toList = lineText cells ++ ['\n'] := by
  rw [tableLine, String.toList_append, String.toList_intercalate]
  rfl

/-- A text of closed lines splits at their ends. -/
theorem splitOn_closed {lines : List (List Char)} (h : ∀ l ∈ lines, '\n' ∉ l) :
    (lines.flatMap (· ++ ['\n'])).splitOn '\n' = lines ++ [[]] := by
  have hclosed : lines.flatMap (· ++ ['\n']) = ['\n'].intercalate (lines ++ [[]]) := by
    induction lines with
    | nil => rfl
    | cons l lines ih =>
      obtain ⟨next, rest, hrest⟩ := List.exists_cons_of_ne_nil (List.concat_ne_nil [] lines)
      rw [List.flatMap_cons, ih (List.forall_mem_cons.1 h).2, List.cons_append, hrest,
        List.intercalate_cons_cons]
  rw [hclosed]
  refine List.splitOn_intercalate '\n' (fun l hl => ?_) (by simp)
  obtain hl | hl := List.mem_append.1 hl
  · exact h l hl
  · simp [List.mem_singleton.1 hl]

section Cells

variable {table : List (List String)}
  (htable : ∀ cells ∈ table, cells ≠ [] ∧ ∀ cell ∈ cells, IsCell cell.toList)
include htable

theorem splitOn_join_tableLine :
    (String.join (table.map tableLine)).toList.splitOn '\n' = table.map lineText ++ [[]] := by
  have hlines : (String.join (table.map tableLine)).toList =
      (table.map lineText).flatMap (· ++ ['\n']) := by
    rw [String.toList_join, List.flatMap_map, List.flatMap_map]
    exact List.flatMap_congr fun cells _ => toList_tableLine cells
  rw [hlines]
  refine splitOn_closed fun l hl => ?_
  obtain ⟨cells, hcells, rfl⟩ := List.mem_map.1 hl
  exact notMem_lineText (htable cells hcells).2

theorem splitOn_lineText : (table.map lineText).map (·.splitOn ',') =
    table.map fun cells => cells.map String.toList := by
  rw [List.map_map]
  refine List.map_congr_left fun cells hcells => ?_
  obtain ⟨hne, hcell⟩ := htable cells hcells
  refine List.splitOn_intercalate ',' (fun cs hcs => ?_) (by simpa using hne)
  obtain ⟨cell, hmem, rfl⟩ := List.mem_map.1 hcs
  exact (hcell cell hmem).1

theorem cellsOf_join_tableLine :
    cellsOf (.join (table.map tableLine)) = table.map fun cells => cells.map String.toList := by
  rw [cellsOf, splitOn_join_tableLine htable, List.dropLast_concat, splitOn_lineText htable]

end Cells

theorem isCell_sheet (levels : Nat) {rows : List (List Nat)} (h : ∀ row ∈ rows, row ≠ []) :
    ∀ cells ∈ tableTitles levels :: rows.map (·.map toString),
      cells ≠ [] ∧ ∀ cell ∈ cells, IsCell cell.toList := by
  refine List.forall_mem_cons.2
    ⟨⟨List.cons_ne_nil _ _, fun _ => isCell_title⟩, fun cells hcells => ?_⟩
  obtain ⟨row, hrow, rfl⟩ := List.mem_map.1 hcells
  refine ⟨by simpa using h row hrow, fun cell hcell => ?_⟩
  obtain ⟨n, -, rfl⟩ := List.mem_map.1 hcell
  exact isCell_digits n

theorem mapM_map_eq_some {α β : Type} {f : β → Option α} {g : α → β} {xs : List α}
    (h : ∀ x ∈ xs, f (g x) = some x) : (xs.map g).mapM f = some xs := by
  induction xs with
  | nil => rfl
  | cons x xs ih =>
    rw [List.forall_mem_cons] at h
    simp [h.1, ih h.2]

theorem map_toList_sheet (levels : Nat) (rows : List (List Nat)) :
    (tableTitles levels :: rows.map (·.map toString)).map (fun cells => cells.map String.toList) =
      (tableTitles levels).map String.toList :: rows.map fun row => row.map digits := by
  simp [Function.comp_def, digits]

/-- A sheet of numbers is read back. -/
theorem readSheet_sheet {levels : Nat} {rows : List (List Nat)}
    (h : ∀ row ∈ rows, row ≠ [] ∧ ∀ n ∈ row, n < countBound) :
    readSheet (sheet levels rows) = some (levels, rows) := by
  have hrows : (rows.map fun row => row.map digits).mapM (List.mapM number?) = some rows :=
    mapM_map_eq_some fun row hrow => mapM_map_eq_some fun n hn =>
      number?_toString ((h row hrow).2 n hn)
  have hcells : cellsOf (sheet levels rows) =
      (tableTitles levels).map String.toList :: rows.map fun row => row.map digits := by
    rw [sheet, cellsOf_join_tableLine (isCell_sheet levels fun row hrow => (h row hrow).1),
      map_toList_sheet]
  rw [readSheet, hcells]
  dsimp only
  rw [hrows]
  simp [tableTitles]

/-! ## Layers -/

/-- A hierarchy over `n` vertices: each level parts them, and what is together stays together. -/
structure Hierarchy.Layered (h : Hierarchy W) (n : Nat) : Prop where
  /-- Each level has a partition, with labels below `n`. -/
  exists_partitionAt : ∀ k < h.levels.length,
    ∃ p, h.partitionAt k = .ok (some p) ∧ p.size = n ∧ ∀ x ∈ p, x < n
  /-- What is together at a level is so at the next one. -/
  together : ∀ k fine coarse, h.partitionAt k = .ok (some fine) →
    h.partitionAt (k + 1) = .ok (some coarse) →
      ∀ u v : Nat, fine[u]? = fine[v]? → coarse[u]? = coarse[v]?

section Layers

variable {h : Hierarchy W} {n : Nat}

theorem Hierarchy.WellFormed.layered (hh : h.WellFormed n) : h.Layered n where
  exists_partitionAt k hk := by
    obtain ⟨p, hp, hsize, hmem⟩ := hh.partitionAt_eq_some k _ (List.getElem?_eq_getElem hk)
    exact ⟨p, hp, hsize, fun x hx =>
      ((hmem x).1 hx).trans_le (hh.communities_le (List.getElem_mem hk))⟩
  together := hh.together

theorem Hierarchy.layered_nodeless [Weight W] :
    (⟨[⟨#[], 0, 0, 0⟩], none⟩ : Hierarchy W).Layered 0 where
  exists_partitionAt k hk := by
    obtain rfl : k = 0 := Nat.lt_one_iff.1 hk
    exact ⟨#[], rfl, rfl, by simp⟩
  together k fine coarse _ hcoarse := by
    rw [partitionAt_eq_none (Nat.succ_le_succ (Nat.zero_le k))] at hcoarse
    cases hcoarse

/-- What is together at a level is so at every later one. -/
theorem Hierarchy.Layered.together_of_le (hh : h.Layered n) {j k : Nat} (hjk : j ≤ k)
    {fine coarse : Array Nat} (hfine : h.partitionAt j = .ok (some fine))
    (hcoarse : h.partitionAt k = .ok (some coarse)) {u v : Nat} (huv : fine[u]? = fine[v]?) :
    coarse[u]? = coarse[v]? := by
  induction k, hjk using Nat.le_induction generalizing coarse with
  | base =>
    obtain rfl : fine = coarse := by simpa using hfine.symm.trans hcoarse
    exact huv
  | succ k _ ih =>
    obtain ⟨level, hlevel⟩ := Hierarchy.exists_level hcoarse
    have hk := (List.getElem?_eq_some_iff.1 hlevel).1
    obtain ⟨mid, hmid, -⟩ := hh.exists_partitionAt k (Nat.lt_of_succ_lt hk)
    exact hh.together k mid coarse hmid hcoarse u v (ih hmid)

end Layers

namespace EdgeList

/-! ## Rows -/

/-- The rows have the label of each vertex and its community at each level. -/
structure Tabulates (es : EdgeList W) (h : Hierarchy W) (rows : List (List Nat)) : Prop where
  /-- Each vertex has a row. -/
  length_eq : rows.length = es.size
  /-- A row has a number for the vertex and one for each level. -/
  length_row : ∀ row ∈ rows, row.length = 1 + h.levels.length
  /-- The first number is the label of the vertex. -/
  label_eq : ∀ (i : Nat) row, rows[i]? = some row → row[0]? = es.vertices.values[i]?
  /-- Each level has a partition, and its number is the community of the vertex. -/
  community_eq : ∀ k < h.levels.length, ∃ p, h.partitionAt k = .ok (some p) ∧ p.size = es.size ∧
    ∀ (i : Nat) row, rows[i]? = some row → row[k + 1]? = p[i]?

variable {es es' : EdgeList W} {h h' : Hierarchy W}

namespace Tabulates

variable {rows : List (List Nat)}

/-- An array with as many entries as there are rows is a column of these if each row shows its
entry. -/
private theorem getElem?_column {column : Array Nat} {j : Nat} (hsize : column.size = rows.length)
    (hcolumn : ∀ (i : Nat) row, rows[i]? = some row → row[j]? = column[i]?) (i : Nat) :
    column[i]? = rows[i]?.bind (·[j]?) := by
  cases hrow : rows[i]? with
  | none => exact Array.getElem?_eq_none_iff.2 (hsize ▸ List.getElem?_eq_none_iff.1 hrow)
  | some row => exact (hcolumn i row hrow).symm

theorem getElem?_values (ht : es.Tabulates h rows) (i : Nat) :
    es.vertices.values[i]? = rows[i]?.bind (·[0]?) :=
  getElem?_column ht.length_eq.symm ht.label_eq i

theorem exists_partition (ht : es.Tabulates h rows) {k : Nat} (hk : k < h.levels.length) :
    ∃ p, h.partitionAt k = .ok (some p) ∧ ∀ i : Nat, p[i]? = rows[i]?.bind (·[k + 1]?) := by
  obtain ⟨p, hp, hsize, hcommunity⟩ := ht.community_eq k hk
  exact ⟨p, hp, getElem?_column (hsize.trans ht.length_eq.symm) hcommunity⟩

/-- The rows stand for nothing else. -/
theorem unique (ht : es.Tabulates h rows) (ht' : es'.Tabulates h' rows)
    (hlevels : h'.levels.length = h.levels.length) :
    es'.vertices = es.vertices ∧ ∀ k, h'.partitionAt k = h.partitionAt k := by
  have hvalues : es'.vertices.values = es.vertices.values :=
    Array.ext_getElem? fun i => by rw [ht'.getElem?_values, ht.getElem?_values]
  refine ⟨congrArg Ranking.mk hvalues, fun k => ?_⟩
  by_cases hk : k < h.levels.length
  · obtain ⟨p, hp, hentry⟩ := ht.exists_partition hk
    obtain ⟨p', hp', hentry'⟩ := ht'.exists_partition (hlevels ▸ hk)
    have hsame : p' = p := Array.ext_getElem? fun i => by rw [hentry', hentry]
    rw [hp, hp', hsame]
  · rw [Hierarchy.partitionAt_eq_none (Nat.not_lt.1 hk),
      Hierarchy.partitionAt_eq_none (hlevels ▸ Nat.not_lt.1 hk)]

/-- Rows that agree in a column of communities agree in all that follow. -/
theorem merges (ht : es.Tabulates h rows) (hh : h.Layered es.size) {row row' : List Nat}
    (hrow : row ∈ rows) (hrow' : row' ∈ rows) {j k : Nat} (hj : 0 < j) (hjk : j ≤ k)
    (hsame : row[j]? = row'[j]?) : row[k]? = row'[k]? := by
  obtain ⟨j, rfl⟩ := Nat.exists_eq_succ_of_ne_zero (Nat.ne_of_gt hj)
  obtain ⟨k, rfl⟩ := Nat.exists_eq_succ_of_ne_zero (Nat.ne_of_gt (hj.trans_le hjk))
  -- Behind the label, column `k + 1` is that of level `k`.
  have hjk := Nat.le_of_succ_le_succ hjk
  obtain ⟨u, hu⟩ := List.mem_iff_getElem?.1 hrow
  obtain ⟨v, hv⟩ := List.mem_iff_getElem?.1 hrow'
  by_cases hk : k < h.levels.length
  · obtain ⟨fine, hfine, hfines⟩ := ht.exists_partition (hjk.trans_lt hk)
    obtain ⟨coarse, hcoarse, hcoarses⟩ := ht.exists_partition hk
    have huv : fine[u]? = fine[v]? := by simpa [hfines, hu, hv] using hsame
    have hcommon := hh.together_of_le hjk hfine hcoarse huv
    simpa [hcoarses, hu, hv] using hcommon
  · have hlength := ht.length_row row hrow
    have hlength' := ht.length_row row' hrow'
    rw [List.getElem?_eq_none (by omega), List.getElem?_eq_none (by omega)]

end Tabulates

/-- The label of each vertex and its entries in the given partitions. -/
def tableRows (es : EdgeList W) (partitions : List (Array Nat)) : List (List Nat) :=
  es.vertices.values.toList.zipIdx.map fun (label, id) => label :: partitions.map (·.getD id 0)

theorem getElem?_tableRows (partitions : List (Array Nat)) (i : Nat) :
    (es.tableRows partitions)[i]? =
      es.vertices.values[i]?.map fun label => label :: partitions.map (·.getD i 0) := by
  rw [tableRows, List.getElem?_map, List.getElem?_zipIdx, Option.map_map, Array.getElem?_toList,
    Nat.zero_add]
  rfl

section Table

variable {partitions : List (Array Nat)} (hpartitions : h.partitions = .ok partitions)
  (hsize : ∀ p ∈ partitions, p.size = es.size)
include hpartitions hsize

theorem table_eq_sheet : es.table h = .ok (sheet h.levels.length (es.tableRows partitions)) := by
  have hrow : ∀ x ∈ es.vertices.values.toList.zipIdx, tableCells partitions x.1 x.2 =
      .ok ((x.1 :: partitions.map (·.getD x.2 0)).map toString) := fun x hx => by
    have hlt : x.2 < es.size := (List.snd_lt_of_mem_zipIdx hx).trans_eq Array.length_toList
    have hcells : (partitions.mapM fun p => do return toString (← fetch p x.2)) =
        Except.ok (ε := Fault) (partitions.map fun p => toString (p.getD x.2 0)) :=
      mapM_eq_ok fun p hp => by
        have hp := hsize p hp
        rw [fetch_of_lt (hp ▸ hlt)]
        simp [hp, hlt]
    rw [tableCells, hcells]
    simp
  rw [table, hpartitions, ok_bind, mapM_eq_ok hrow, ok_bind,
    Hierarchy.length_partitions hpartitions, sheet, tableRows, List.map_map]
  rfl

theorem tabulates_tableRows : es.Tabulates h (es.tableRows partitions) where
  length_eq := by
    rw [tableRows, List.length_map, List.length_zipIdx]
    exact Array.length_toList
  length_row row hrow := by
    obtain ⟨i, hi⟩ := List.mem_iff_getElem?.1 hrow
    rw [getElem?_tableRows] at hi
    obtain ⟨label, -, rfl⟩ := Option.map_eq_some_iff.1 hi
    rw [List.length_cons, List.length_map, Hierarchy.length_partitions hpartitions, Nat.add_comm]
  label_eq i row hrow := by
    rw [getElem?_tableRows] at hrow
    obtain ⟨label, hlabel, rfl⟩ := Option.map_eq_some_iff.1 hrow
    exact hlabel.symm
  community_eq k hk := by
    have hk' : k < partitions.length := Hierarchy.length_partitions hpartitions ▸ hk
    have hlevel := (Hierarchy.forall₂_partitions hpartitions).get (by simpa using hk) hk'
    have hp : partitions[k].size = es.size := hsize _ (List.getElem_mem hk')
    refine ⟨partitions[k], by simpa using hlevel, hp, fun i row hrow => ?_⟩
    rw [getElem?_tableRows] at hrow
    obtain ⟨label, hlabel, rfl⟩ := Option.map_eq_some_iff.1 hrow
    have hi : i < partitions[k].size := hp ▸ (Array.getElem?_eq_some_iff.1 hlabel).1
    rw [List.getElem?_cons_succ, List.getElem?_map, List.getElem?_eq_getElem hk', Option.map_some,
      Array.getElem?_eq_getElem hi, Array.getD, dif_pos hi]
    rfl

end Table

section Solved

variable [Weight W] {weights : WeightText W}

/-- The edge list has been read from a text, and the hierarchy is the answer of a solver for its
network. -/
def Solved (weights : WeightText W) (es : EdgeList W) (h : Hierarchy W) : Prop :=
  ∃ source net s budget seed run s', read weights source = .ok es ∧ es.toNetwork = .ok net ∧
    (s : Solver W).cluster budget net seed = .ok (run, s') ∧ run.result = .ok h

theorem Solved.layered (hsolved : Solved weights es h) : h.Layered es.size := by
  obtain ⟨source, net, s, budget, seed, run, s', hread, hnet, hrun, hh⟩ := hsolved
  have hsize : net.size = es.size := Network.size_ofEdges hnet
  rw [← hsize]
  by_cases hedges : net.edgeCount = 0
  · have hnone : net.size = 0 := hsize.trans (size_of_edgeless hread hnet hedges)
    obtain rfl := Solver.cluster_nodeless hnone hedges hrun hh
    rw [hnone]
    exact Hierarchy.layered_nodeless
  · exact (Solver.cluster_wellFormed (.ofEdges hnet) hedges hrun hh).layered

/-- Labels that have been read are 64-bit numbers. -/
theorem lt_of_mem_values {source : Source} (hread : read weights source = .ok es) {x : Nat}
    (hx : x ∈ es.vertices.values) : x < countBound := by
  obtain ⟨rs, edges, -, hedges, -, rfl⟩ := read_eq_ok_iff.1 hread
  obtain ⟨e, he, hx⟩ := List.mem_flatMap.1 (mem_vertices_ofLabelled.1 hx)
  obtain ⟨i, hi, rfl⟩ := List.mem_iff_getElem.1 he
  have hfs := hedges.get (hedges.length_eq ▸ hi) hi
  generalize rs.get _ = fs at hfs
  obtain _ | ⟨source, _ | ⟨target, rest⟩⟩ := fs
  · cases hfs
  · cases hfs
  obtain ⟨hsource, htarget, -⟩ := edge?_eq_some_iff.1 hfs
  obtain rfl | rfl := List.mem_pair.1 hx
  · exact IsNumeral.lt (number?_eq_some_iff.1 hsource)
  · exact IsNumeral.lt (number?_eq_some_iff.1 htarget)

theorem Solved.exists_tabulates (hsolved : Solved weights es h) :
    ∃ rows, es.table h = .ok (sheet h.levels.length rows) ∧ es.Tabulates h rows ∧
      ∀ row ∈ rows, row ≠ [] ∧ ∀ n ∈ row, n < countBound := by
  have hlayered := hsolved.layered
  obtain ⟨source, -, -, -, -, -, -, hread, -⟩ := hsolved
  obtain ⟨partitions, hpartitions, hbelow⟩ := exists_filterMapM fun k hk =>
    hlayered.exists_partitionAt k (List.mem_range.1 hk)
  have hsize : ∀ p ∈ partitions, p.size = es.size := fun p hp => (hbelow p hp).1
  refine ⟨es.tableRows partitions, table_eq_sheet hpartitions hsize,
    tabulates_tableRows hpartitions hsize, fun row hrow => ?_⟩
  obtain ⟨i, hi⟩ := List.mem_iff_getElem?.1 hrow
  rw [getElem?_tableRows] at hi
  obtain ⟨label, hlabel, rfl⟩ := Option.map_eq_some_iff.1 hi
  refine ⟨List.cons_ne_nil _ _, List.forall_mem_cons.2
    ⟨lt_of_mem_values hread (Array.mem_of_getElem? hlabel), fun n hn => ?_⟩⟩
  obtain ⟨p, hp, rfl⟩ := List.mem_map.1 hn
  have hi : i < p.size := hsize p hp ▸ (Array.getElem?_eq_some_iff.1 hlabel).1
  have hcommunity := (hbelow p hp).2 p[i] (Array.getElem_mem hi)
  have hfew := (ends_of_read hread).1
  simp only [Array.getD, dif_pos hi]
  unfold idBound at hfew
  unfold countBound
  exact hcommunity.trans (hfew.trans (by decide))

/-- A table of an answer has a line of titles and a line for each vertex, each of them closed. The
titles are `vertex` and, for each level, `level` with its number. The cells of the line of a vertex
are its label and its community at each level, in decimal, and nothing else; so the number of levels
and all rows can be read back, and another answer with this table has the same vertices, the same
number of levels and the same partitions. Vertices with the same community at a level have the same
one at every later level. -/
theorem table_readable (hsolved : Solved weights es h) :
    ∃ text lines rows, es.table h = .ok text ∧
      text.toList.splitOn '\n' = lines ++ [[]] ∧ lines.length = 1 + es.size ∧
      lines.map (·.splitOn ',') =
        ("vertex".toList :: (List.range h.levels.length).map fun k => "level".toList ++ digits k) ::
          rows.map (·.map digits) ∧
      es.Tabulates h rows ∧
      readSheet text = some (h.levels.length, rows) ∧
      (∀ row ∈ rows, ∀ row' ∈ rows, ∀ j k, 0 < j → j ≤ k → row[j]? = row'[j]? →
        row[k]? = row'[k]?) ∧
      ∀ (weights' : WeightText W) (es' : EdgeList W) (h' : Hierarchy W), Solved weights' es' h' →
        es'.table h' = .ok text →
          es'.vertices = es.vertices ∧ h'.levels.length = h.levels.length ∧
            ∀ k, h'.partitionAt k = h.partitionAt k := by
  obtain ⟨rows, htable, htabulates, hrows⟩ := hsolved.exists_tabulates
  have hcells := isCell_sheet h.levels.length fun row hrow => (hrows row hrow).1
  refine ⟨_, _, rows, htable, splitOn_join_tableLine hcells, ?_, ?_, htabulates,
    readSheet_sheet hrows, fun row hrow row' hrow' j k hj hjk =>
      htabulates.merges hsolved.layered hrow hrow' hj hjk,
    fun weights' es' h' hsolved' htable' => ?_⟩
  · rw [List.length_map, List.length_cons, List.length_map, htabulates.length_eq, Nat.add_comm]
  · rw [splitOn_lineText hcells, map_toList_sheet, map_toList_tableTitles]
  · obtain ⟨rows', htable'', htabulates', hrows'⟩ := hsolved'.exists_tabulates
    have hread : readSheet (sheet h'.levels.length rows') = some (h'.levels.length, rows') :=
      readSheet_sheet hrows'
    rw [← Except.ok.inj (htable'.symm.trans htable''), readSheet_sheet hrows] at hread
    obtain ⟨hlevels, rfl⟩ := Prod.mk.inj (Option.some.inj hread)
    obtain ⟨hvertices, hpartitions⟩ := htabulates.unique htabulates' hlevels.symm
    exact ⟨hvertices, hlevels.symm, hpartitions⟩

end Solved

/-- A triangle with a tail, between vertices with labels. -/
def kite : EdgeList ℚ := ofLabelled [⟨10, 7, 2⟩, ⟨7, 30, 1⟩, ⟨30, 10, 1⟩, ⟨7, 55, 2⟩]

theorem table_readable_kite :
    ∃ (h : Hierarchy ℚ) (lines : List (List Char)) (rows : List (List Nat)),
      Solved .whole kite h ∧
      kite.table h = .ok "vertex,level0,level1\n7,1,0\n10,0,0\n30,0,0\n55,1,0\n" ∧
      "vertex,level0,level1\n7,1,0\n10,0,0\n30,0,0\n55,1,0\n".toList.splitOn '\n' =
        lines ++ [[]] ∧
      lines.map (·.splitOn ',') =
        ["vertex".toList, "level0".toList, "level1".toList] :: rows.map (·.map digits) ∧
      kite.Tabulates h rows ∧
      readSheet "vertex,level0,level1\n7,1,0\n10,0,0\n30,0,0\n55,1,0\n" = some (2, rows) ∧
      ∀ row ∈ rows, ∀ row' ∈ rows, row[1]? = row'[1]? → row[2]? = row'[2]? := by
  have hread : read .whole (.ofString "10 7 2\n7 30\n30 10\n7 55 2") = .ok kite := by
    rw [read, Text.Source.mapRecords_ofString, Weight.ofField_rat]
    cbv
  have hnet : kite.toNetwork = .ok Network.kite := by cbv
  have hvalues : kite.vertices.values = #[7, 10, 30, 55] := by cbv
  obtain ⟨run, s', h, hrun, hh, hlevels⟩ := Solver.cluster_kite
  have hsolved : Solved .whole kite h := ⟨_, _, _, _, _, run, s', hread, hnet, hrun, hh⟩
  have hpartitions : h.partitions = .ok [#[1, 0, 0, 1], #[0, 0, 0, 0]] := by
    obtain ⟨levels, coarse⟩ := h
    obtain rfl : levels = _ := hlevels
    cbv
  have htable : kite.table h = .ok "vertex,level0,level1\n7,1,0\n10,0,0\n30,0,0\n55,1,0\n" := by
    rw [table, hvalues, hpartitions]
    rfl
  obtain ⟨text, lines, rows, htext, hlines, -, hcells, htabulates, hrows, hmerges, -⟩ :=
    table_readable hsolved
  obtain rfl := Except.ok.inj (htable.symm.trans htext)
  have hcount : h.levels.length = 2 := by rw [hlevels]; rfl
  rw [hcount] at hcells hrows
  exact ⟨h, lines, rows, hsolved, htable, hlines, hcells, htabulates, hrows,
    fun row hrow row' hrow' => hmerges row hrow row' hrow' 1 2 Nat.one_pos one_le_two⟩

end EdgeList

end Communities
