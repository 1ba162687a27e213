import Communities.Proofs.EdgeList.Seed
import Communities.Proofs.Network.Condense
import Communities.Proofs.Text.Numeral
import Communities.Solver

/-!
# The grammar of seeds

The lines of a seed that are not blank assign a community to a vertex each. A line can be rejected
for itself, or because of what its vertex is or has been assigned before; a seed without such a line
can still leave out vertices, and then the least of them is missed.

* `EdgeList.Assigns`: which fields assign a community; `EdgeList.seedObjections`: what is wrong with
  others, and with an assignment behind others.
* `EdgeList.readSeed_grammar`: which texts are read, as what, and why others are not.
-/

namespace Communities

open Text

namespace EdgeList

variable {W : Type} {es : EdgeList W} {fs : List (List Char)} {pairs done : List (Nat × Nat)}
  {p : Nat × Nat} {labels : Array Nat} {v c : Nat}

/-! ## Records -/

/-- The fields assign a community to a vertex: both are numbers, whatever else there is. -/
inductive Assigns : List (List Char) → Nat × Nat → Prop
  | mk {vertex community : List Char} {rest : List (List Char)} {v c : Nat}
      (isNumeral_vertex : IsNumeral v vertex) (isNumeral_community : IsNumeral c community) :
      Assigns (vertex :: community :: rest) (v, c)

theorem named?_eq_some_iff_assigns : named? fs = some p ↔ Assigns fs p := by
  constructor
  · intro h
    obtain _ | ⟨vertex, _ | ⟨community, rest⟩⟩ := fs
    · cases h
    · cases h
    obtain ⟨hv, hc⟩ := named?_eq_some_iff.1 h
    exact .mk (number?_eq_some_iff.1 hv) (number?_eq_some_iff.1 hc)
  · rintro ⟨hv, hc⟩
    exact named?_eq_some_iff.2 ⟨number?_eq_some_iff.2 hv, number?_eq_some_iff.2 hc⟩

/-- What can be said against a vertex, if the given pairs have been named before. -/
def vertexObjections (es : EdgeList W) (done : List (Nat × Nat)) (line v : Nat) :
    List (TextError W) :=
  if v ∉ es.vertices.values then [.unknownVertex line v]
  else if v ∈ done.map (·.1) then [.assignedTwice line v]
  else []

/-- All that can be said against a record behind the given pairs, in the order in which it
counts. -/
def seedObjections (es : EdgeList W) (done : List (Nat × Nat)) (r : Record) :
    List (TextError W) :=
  r.numberObjections 0 ++ r.numberObjections 1 ++
    ((r.fields.head?.bind number?).toList.flatMap (es.vertexObjections done r.line))

section Fold

variable (hs : es.vertices.values.toList.Pairwise (· < ·))
include hs

theorem id?_eq_none_iff : es.id? v = none ↔ v ∉ es.vertices.values := by
  rw [Array.mem_iff_getElem?, Option.eq_none_iff_forall_ne_some, not_exists]
  exact forall_congr' fun i => not_congr (Ranking.find?_eq_some_iff hs)

theorem heeds_assign (line v c : Nat) :
    Heeds (es.assign (es.gathered done) line v c : Except (TextError W) Assignment)
      (es.vertexObjections done line v) := by
  have hok : ∀ table, es.assign (es.gathered done) line v c = (.ok table : Except (TextError W) _) ↔
      (v ∈ es.vertices.values ∧ v ∉ done.map (·.1)) ∧ table = es.gathered (done ++ [(v, c)]) :=
    fun _ => (assign_eq_ok_iff (p := (v, c)) line).trans (assign?_gathered hs)
  rw [vertexObjections]
  by_cases hv : v ∈ es.vertices.values
  · rw [if_neg (not_not.2 hv)]
    by_cases hdone : v ∈ done.map (·.1)
    · obtain ⟨id, hid⟩ := Option.ne_none_iff_exists'.1 (mt (id?_eq_none_iff hs).1 (not_not.2 hv))
      rw [if_pos hdone, assign, hid]
      dsimp only
      split
      · exact .error _ _
      · next hfree =>
        -- A vertex that is free has not been named.
        have hassign := (hok _).1 (by rw [assign, hid]; exact if_neg hfree)
        exact absurd hdone hassign.1.2
    · rw [if_neg hdone, (hok _).2 ⟨⟨hv, hdone⟩, rfl⟩]
      exact .ok _
  · rw [if_pos hv, assign, (id?_eq_none_iff hs).2 hv]
    exact .error _ _

theorem heeds_record (r : Record) :
    Heeds (do let vertex ← r.number 0
              let community ← r.number 1
              es.assign (es.gathered done) r.line vertex community :
        Except (TextError W) Assignment) (es.seedObjections done r) := by
  rw [seedObjections, List.append_assoc]
  refine (r.heeds_number 0).bind fun v hv => (r.heeds_number 1).bind fun c _ => ?_
  obtain ⟨field, hfield, hnumber⟩ := Record.number_eq_ok_iff.1 hv
  rw [List.head?_eq_getElem?, hfield, Option.bind_some, hnumber]
  simpa using heeds_assign hs r.line v c

/-- The completion fails for the least vertex that is not named. -/
theorem completed_gathered_eq_error_iff {e : TextError W} :
    (es.completed (es.gathered pairs) : Except (TextError W) (Array Nat)) = .error e ↔
      ∃ v, IsLeast {v | v ∈ es.vertices.values ∧ v ∉ pairs.map (·.1)} v ∧ e = .unassigned v := by
  have hnamed : ∀ u, (∃ c, (communityOf pairs u : Except (TextError W) Nat) = .ok c) ↔
      u ∈ pairs.map (·.1) := fun u => by
    simp only [communityOf_eq_ok_iff]
    rw [← not_iff_not, ← lookup_eq_none, Option.eq_none_iff_forall_ne_some, not_exists]
  rw [completed_gathered_eq, map_eq_error_iff, mapM_eq_error_iff]
  simp only [communityOf_eq_error_iff]
  constructor
  · rintro ⟨before, v, after, ys, hvalues, hbefore, hv, rfl⟩
    rw [hvalues, List.pairwise_append, List.pairwise_cons] at hs
    refine ⟨v, ⟨⟨?_, hv⟩, fun u hu => ?_⟩, rfl⟩
    · rw [← Array.mem_toList_iff, hvalues]
      simp
    · obtain ⟨hmem, hfree⟩ := hu
      rw [← Array.mem_toList_iff, hvalues, List.mem_append, List.mem_cons] at hmem
      obtain hmem | rfl | hmem := hmem
      · exact absurd ((hnamed u).1 (exists_of_mapM hbefore u hmem)) hfree
      · exact le_rfl
      · exact (hs.2.1.1 u hmem).le
  · rintro ⟨v, ⟨⟨hmem, hv⟩, hleast⟩, rfl⟩
    obtain ⟨before, after, hvalues⟩ := List.append_of_mem (Array.mem_toList_iff.2 hmem)
    rw [hvalues, List.pairwise_append] at hs
    have hbefore : ∀ u ∈ before, u ∈ pairs.map (·.1) := fun u hu => by
      by_contra hfree
      have hu' : u ∈ es.vertices.values := Array.mem_toList_iff.1 (by rw [hvalues]; simp [hu])
      exact absurd (hs.2.2 u hu v List.mem_cons_self) (Nat.not_lt.2 (hleast ⟨hu', hfree⟩))
    obtain ⟨ys, hys⟩ := exists_mapM fun u hu => (hnamed u).2 (hbefore u hu)
    exact ⟨before, v, after, ys, hvalues, hys, hv, rfl⟩

end Fold

/-! ## Texts -/

/-- The pairs name vertices of the edge list, each at most once. -/
structure Fresh (es : EdgeList W) (pairs : List (Nat × Nat)) : Prop where
  /-- They are vertices. -/
  mem_values : ∀ p ∈ pairs, p.1 ∈ es.vertices.values
  /-- None is named again. -/
  nodup : (pairs.map (·.1)).Nodup

private theorem assign_record_eq_ok_iff_assigns (table : Assignment) (r : Record)
    (table' : Assignment) :
    (do let vertex ← r.number 0
        let community ← r.number 1
        es.assign table r.line vertex community : Except (TextError W) Assignment) = .ok table' ↔
      ∃ p, Assigns r.fields p ∧ es.assign? table p = some table' := by
  rw [assign_record_eq_ok_iff, Option.bind_eq_some_iff]
  simp only [named?_eq_some_iff_assigns]

section Read

variable (hs : es.vertices.values.toList.Pairwise (· < ·)) {bytes : ByteArray}
include hs

theorem foldlM_assign?_blank {table : Assignment} :
    pairs.foldlM es.assign? (es.gathered []) = some table ↔
      es.Fresh pairs ∧ table = es.gathered pairs := by
  rw [foldlM_assign? hs, List.nil_append]
  refine and_congr_left fun _ => ⟨fun h => ⟨fun p hp => (h.1 p hp).1, h.2⟩, fun h => ⟨fun p hp =>
    ⟨h.mem_values p hp, by simp⟩, h.nodup⟩⟩

theorem readSeed_eq_ok_iff_yields :
    (es.readSeed ⟨bytes, none⟩ : Except (TextError W) (Array Nat)) = .ok labels ↔
      ∃ pairs, Yields Assigns (linesOf bytes) pairs ∧ es.Names pairs labels := by
  rw [readSeed, bind_eq_ok_iff, blank_eq_gathered]
  simp only [Source.foldRecords_eq_ok_iff_yields assign_record_eq_ok_iff_assigns,
    foldlM_assign?_blank hs, ← names_iff hs]
  constructor
  · rintro ⟨_, ⟨pairs, hpairs, hfresh, rfl⟩, hlabels⟩
    exact ⟨pairs, hpairs, ⟨hfresh.mem_values, hfresh.nodup⟩, completed_gathered.1 hlabels⟩
  · rintro ⟨pairs, hpairs, ⟨hmem, hnodup⟩, hlabels⟩
    exact ⟨_, ⟨pairs, hpairs, ⟨hmem, hnodup⟩, rfl⟩, completed_gathered.2 hlabels⟩

theorem readSeed_eq_error_iff {e : TextError W} :
    es.readSeed ⟨bytes, none⟩ = .error e ↔
      (∃ before line after pairs, linesOf bytes = before ++ line :: after ∧
        Yields Assigns before pairs ∧ es.Fresh pairs ∧
        Rejects (es.seedObjections pairs) (before.length + 1) line e) ∨
      ∃ pairs v, Yields Assigns (linesOf bytes) pairs ∧ es.Fresh pairs ∧
        IsLeast {v | v ∈ es.vertices.values ∧ v ∉ pairs.map (·.1)} v ∧ e = .unassigned v := by
  have hobjections : ∀ (pairs : List (Nat × Nat)) (table : Assignment),
      pairs.foldlM es.assign? (es.gathered []) = some table → ∀ r : Record,
        Heeds (do let vertex ← r.number 0
                  let community ← r.number 1
                  es.assign table r.line vertex community : Except (TextError W) Assignment)
          (es.seedObjections pairs r) := fun pairs table h r => by
    obtain ⟨-, rfl⟩ := (foldlM_assign?_blank hs).1 h
    exact heeds_record hs r
  rw [readSeed, bind_eq_error_iff, blank_eq_gathered,
    Source.foldRecords_eq_error_iff assign_record_eq_ok_iff_assigns hobjections]
  simp only [Source.foldRecords_eq_ok_iff_yields assign_record_eq_ok_iff_assigns,
    foldlM_assign?_blank hs]
  constructor
  · rintro (⟨before, line, after, pairs, _, hlines, hpairs, ⟨hfresh, -⟩, hrejects⟩ |
      ⟨_, ⟨pairs, hpairs, hfresh, rfl⟩, h⟩)
    · exact .inl ⟨before, line, after, pairs, hlines, hpairs, hfresh, hrejects⟩
    · obtain ⟨v, hleast, rfl⟩ := (completed_gathered_eq_error_iff hs).1 h
      exact .inr ⟨pairs, v, hpairs, hfresh, hleast, rfl⟩
  · rintro (⟨before, line, after, pairs, hlines, hpairs, hfresh, hrejects⟩ |
      ⟨pairs, v, hpairs, hfresh, hleast, rfl⟩)
    · exact .inl ⟨before, line, after, pairs, _, hlines, hpairs, ⟨hfresh, rfl⟩, hrejects⟩
    · exact .inr ⟨_, ⟨pairs, hpairs, hfresh, rfl⟩,
        (completed_gathered_eq_error_iff hs).2 ⟨v, hleast, rfl⟩⟩

/-- Pairs that name each vertex once assign something to each of them. -/
theorem exists_names (hperm : (pairs.map (·.1)).Perm es.vertices.values.toList) :
    ∃ labels, es.Names pairs labels := by
  have hlookup : ∀ v ∈ es.vertices.values.toList, ∃ c, pairs.lookup v = some c := fun v hv =>
    Option.ne_none_iff_exists'.1 (mt lookup_eq_none.1 (not_not.2 (hperm.mem_iff.2 hv)))
  refine ⟨(es.vertices.values.toList.map fun v => (pairs.lookup v).getD 0).toArray,
    (names_iff hs).1 ⟨⟨fun p hp => ?_, hperm.symm.nodup (hs.imp fun h => Nat.ne_of_lt h)⟩, ?_⟩⟩
  · exact Array.mem_toList_iff.1 (hperm.mem_iff.1 (List.mem_map_of_mem hp))
  · rw [List.map_map]
    refine List.map_congr_left fun v hv => ?_
    obtain ⟨c, hc⟩ := hlookup v hv
    simp [hc]

end Read

/-- A seed is read exactly if each of its lines shows nothing or assigns a community, and the
vertices to which one is assigned are those of the edge list, each once and in any order; then each
vertex has the label assigned to it, and the solver takes the labels for the network. Else the error
is that of the first line that is rejected, and if there is none, that of the least vertex without a
community. -/
theorem readSeed_grammar [Weight W] {weights : WeightText W} {source : Source}
    (hread : read weights source = .ok es) (bytes : ByteArray) :
    ((∃ labels, (es.readSeed ⟨bytes, none⟩ : Except (TextError W) (Array Nat)) = .ok labels) ↔
      ∃ pairs, Yields Assigns (linesOf bytes) pairs ∧
        (pairs.map (·.1)).Perm es.vertices.values.toList) ∧
    (∀ labels, (es.readSeed ⟨bytes, none⟩ : Except (TextError W) (Array Nat)) = .ok labels →
      ∃ pairs, Yields Assigns (linesOf bytes) pairs ∧ labels.size = es.size ∧
        (∀ p ∈ pairs, ∃ i, es.id? p.1 = some i ∧ labels[i]? = some p.2) ∧
        ∃ net, es.toNetwork = .ok net ∧
          (checkSeed net.size (some labels) : Except (Rejection W) Unit) = .ok ()) ∧
    ∀ e : TextError W, es.readSeed ⟨bytes, none⟩ = .error e ↔
      (∃ before line after pairs, linesOf bytes = before ++ line :: after ∧
        Yields Assigns before pairs ∧ es.Fresh pairs ∧
        Rejects (es.seedObjections pairs) (before.length + 1) line e) ∨
      ∃ pairs v, Yields Assigns (linesOf bytes) pairs ∧ es.Fresh pairs ∧
        IsLeast {v | v ∈ es.vertices.values ∧ v ∉ pairs.map (·.1)} v ∧ e = .unassigned v := by
  have hs := pairwise_of_read hread
  refine ⟨⟨?_, ?_⟩, fun labels hlabels => ?_, fun e => readSeed_eq_error_iff hs⟩
  · rintro ⟨labels, hlabels⟩
    obtain ⟨pairs, hpairs, hnames⟩ := (readSeed_eq_ok_iff_yields hs).1 hlabels
    exact ⟨pairs, hpairs, hnames.perm⟩
  · rintro ⟨pairs, hpairs, hperm⟩
    obtain ⟨labels, hnames⟩ := exists_names hs hperm
    exact ⟨labels, (readSeed_eq_ok_iff_yields hs).2 ⟨pairs, hpairs, hnames⟩⟩
  · obtain ⟨pairs, hpairs, hnames⟩ := (readSeed_eq_ok_iff_yields hs).1 hlabels
    obtain ⟨hfew, hends⟩ := ends_of_read hread
    obtain ⟨net, hnet, hsize⟩ := Network.exists_ofEdges hfew hends
    refine ⟨pairs, hpairs, hnames.size_eq, fun p hp => ?_, net, hnet, ?_⟩
    · have hmem : p.1 ∈ es.vertices.values :=
        Array.mem_toList_iff.1 (hnames.perm.mem_iff.1 (List.mem_map_of_mem hp))
      obtain ⟨i, hi⟩ := Array.mem_iff_getElem?.1 hmem
      exact ⟨i, (Ranking.find?_eq_some_iff hs).2 hi, hnames.label_eq p hp i hi⟩
    · exact if_pos (hnames.size_eq.trans hsize.symm)

/-- Three vertices, a seed for them, one that names a vertex again and one that leaves two out. -/
theorem readSeed_grammar_path :
    ∃ es, read .decimal (.ofString "10 20\n30 20\n") = .ok es ∧
      (∃ labels, (es.readSeed ⟨"30 7 x\n10 0\n# end\n20 7".toUTF8, none⟩ :
        Except (TextError Float) (Array Nat)) = .ok labels) ∧
      (es.readSeed ⟨"30 7\n\n10 0\n30 1".toUTF8, none⟩ :
        Except (TextError Float) (Array Nat)) = .error (.assignedTwice 4 30) ∧
      (es.readSeed ⟨"30 7".toUTF8, none⟩ :
        Except (TextError Float) (Array Nat)) = .error (.unassigned 10) := by
  let edges : List (Edge Float) := [⟨10, 20, 1⟩, ⟨30, 20, 1⟩]
  have hvalues : (ofLabelled edges).vertices.values = #[10, 20, 30] := by cbv
  have hread : read .decimal (.ofString "10 20\n30 20\n") = .ok (ofLabelled edges) := by
    refine read_eq_ok_iff.2 ⟨[[['1', '0'], ['2', '0']], [['3', '0'], ['2', '0']]], edges,
      Source.holds_iff.2 ⟨_, rfl, by decide⟩, ?_, ?_, rfl⟩
    · exact .cons (edge?_eq_some_iff.2 ⟨by decide, by decide, rfl, by decide⟩)
        (.cons (edge?_eq_some_iff.2 ⟨by decide, by decide, rfl, by decide⟩) .nil)
    · rw [size, Ranking.size, hvalues]
      decide
  have hdatum : ∀ {p : Nat × Nat} {lines : List (List UInt8)} {pairs : List (Nat × Nat)}
      (line : List Char), named? (fieldsOf line) = some p → Yields Assigns lines pairs →
        Yields Assigns (encode line :: lines) (p :: pairs) := fun {p} _ _ line hp =>
    .datum (shows_encode line) (by rintro hnil; rw [hnil] at hp; cases hp)
      (named?_eq_some_iff_assigns.1 hp)
  have hlines : ∀ text : String, linesOf text.toUTF8 = (encode text.toList).splitOn 10 :=
    fun text => congrArg (List.splitOn 10) (toList_toUTF8 text)
  have hseed := readSeed_grammar hread "30 7 x\n10 0\n# end\n20 7".toUTF8
  have htwice := readSeed_grammar hread "30 7\n\n10 0\n30 1".toUTF8
  have hfew := readSeed_grammar hread "30 7".toUTF8
  simp only [hlines, hvalues] at hseed htwice hfew
  refine ⟨_, hread, hseed.1.2 ⟨[(30, 7), (10, 0), (20, 7)], ?_, by decide⟩,
    (htwice.2.2 _).2 (.inl ⟨["30 7", "", "10 0"].map (encode ·.toList), encode "30 1".toList, [],
      [(30, 7), (10, 0)], by decide, ?_, ⟨?_, by decide⟩, ?_⟩),
    (hfew.2.2 _).2 (.inr ⟨[(30, 7)], 10, ?_, ⟨?_, by decide⟩, ?_, rfl⟩)⟩
  · exact hdatum "30 7 x".toList (by decide) (hdatum "10 0".toList (by decide)
      (.blank (shows_encode "# end".toList) (hdatum "20 7".toList (by decide) .nil)))
  · exact hdatum "30 7".toList (by decide) (.blank (shows_encode [])
      (hdatum "10 0".toList (by decide) .nil))
  · simp [hvalues]
  · refine .objection (shows_encode _) (by decide) ?_
    have hfields : fieldsOf "30 1".toList = [['3', '0'], ['1']] := by decide
    have hthirty : number? ['3', '0'] = some 30 := by decide
    have hone : number? ['1'] = some 1 := by decide
    rw [hfields]
    simp [seedObjections, vertexObjections, Record.numberObjections, hvalues, hthirty, hone]
  · exact hdatum "30 7".toList (by decide) .nil
  · simp [hvalues]
  · refine ⟨by simp, fun v hv => ?_⟩
    have hv : v = 10 ∨ v = 20 ∨ v = 30 := by simpa using hv.1
    omega

end EdgeList

end Communities
