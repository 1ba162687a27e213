import Communities.Proofs.EdgeList
import Communities.Proofs.Partition.Ranks
import Communities.Proofs.Text.Numeral

/-!
# The grammar of edge lists

The lines of an edge list that are not blank write an edge each: the numbers of its ends, and maybe
a weight. A text of such lines is read, whatever it says, unless it has more vertices than there are
32-bit ids. Any other text is rejected because of the first thing that is wrong with its first line
that is none of these.

* `EdgeList.Writes`: which fields write an edge; `EdgeList.objections`: what is wrong with others.
* `EdgeList.Compresses`: the ends of the edges get ids in ascending order.
* `EdgeList.read_grammar`: which texts are read, as what, and why others are not.
-/

namespace Communities

open Text

namespace EdgeList

variable {W : Type} [Weight W] {weights : WeightText W}

/-! ## Records -/

/-- The fields write an edge between two labels: these, and its weight if that is not one. -/
inductive Writes (weights : WeightText W) : List (List Char) → Edge W → Prop
  | plain {source target : List Char} {u v : Nat} (isNumeral_source : IsNumeral u source)
      (isNumeral_target : IsNumeral v target) : Writes weights [source, target] ⟨u, v, 1⟩
  | weighted {source target weight : List Char} {u v : Nat} {w : W}
      (isNumeral_source : IsNumeral u source) (isNumeral_target : IsNumeral v target)
      (read_weight : weights.read weight = some w) (valid : Weight.Valid w) :
      Writes weights [source, target, weight] ⟨u, v, w⟩

/-- What can be said against the weight that a record gives, if it gives one. -/
def weightObjections (weights : WeightText W) (r : Record) : List (TextError W) :=
  match r.fields[2]? with
  | none => []
  | some field =>
    match weights.read field with
    | none => [.badField r.line field]
    | some w => if Weight.Valid w then [] else [.badWeight r.line w]

/-- All that can be said against a record as an edge, in the order in which it counts. -/
def objections (weights : WeightText W) (r : Record) : List (TextError W) :=
  (if 3 < r.fields.length then [.tooManyFields r.line] else []) ++ r.numberObjections 0 ++
    r.numberObjections 1 ++ weightObjections weights r

variable {fs : List (List Char)} {e : Edge W}

theorem edge?_eq_some_iff_writes (hone : Weight.Valid (1 : W)) :
    edge? weights fs = some e ↔ Writes weights fs e := by
  constructor
  · intro h
    obtain _ | ⟨source, _ | ⟨target, rest⟩⟩ := fs
    · cases h
    · cases h
    obtain ⟨u, v, w⟩ := e
    obtain ⟨hu, hv, hw, hvalid⟩ := edge?_eq_some_iff.1 h
    rw [number?_eq_some_iff] at hu hv
    obtain _ | ⟨weight, _ | ⟨_, _⟩⟩ := rest
    · obtain rfl : 1 = w := Option.some.inj hw
      exact .plain hu hv
    · exact .weighted hu hv hw hvalid
    · cases hw
  · rintro (⟨hu, hv⟩ | ⟨hu, hv, hw, hvalid⟩)
    · exact edge?_eq_some_iff.2 ⟨number?_eq_some_iff.2 hu, number?_eq_some_iff.2 hv, rfl, hone⟩
    · exact edge?_eq_some_iff.2 ⟨number?_eq_some_iff.2 hu, number?_eq_some_iff.2 hv, hw, hvalid⟩

theorem readEdge_eq_ok_iff_writes (hone : Weight.Valid (1 : W)) (r : Record) (e : Edge W) :
    readEdge weights r = .ok e ↔ Writes weights r.fields e :=
  (readEdge_eq_ok_iff r e).trans (edge?_eq_some_iff_writes hone)

theorem heeds_readWeight (hone : Weight.Valid (1 : W)) {r : Record} (hr : ¬3 < r.fields.length) :
    Heeds (readWeight weights r) (weightObjections weights r) := by
  rw [readWeight, weightObjections]
  cases hfield : r.fields[2]? with
  | none =>
    have hlength : ¬r.fields.length = 3 := by
      have := List.getElem?_eq_none_iff.1 hfield
      omega
    rw [if_neg hlength, pure_eq_ok, ok_bind]
    dsimp only
    rw [if_pos hone]
    exact .ok _
  | some field =>
    have hlength : r.fields.length = 3 := by
      have := (List.getElem?_eq_some_iff.1 hfield).1
      omega
    rw [if_pos hlength, Record.field, hfield]
    dsimp only
    cases weights.read field with
    | none => exact .error _ _
    | some w =>
      dsimp only
      rw [ok_bind]
      split
      · exact .ok _
      · exact .error _ _

theorem heeds_readEdge (hone : Weight.Valid (1 : W)) (r : Record) :
    Heeds (readEdge weights r) (objections weights r) := by
  rw [readEdge, objections, List.append_assoc, List.append_assoc]
  refine .ite _ fun hfew => (r.heeds_number 0).bind fun source _ =>
    (r.heeds_number 1).bind fun target _ => ?_
  have hweight : Heeds (readWeight weights r) (weightObjections weights r) :=
    heeds_readWeight hone hfew
  have hedge := hweight.bind fun w _ => .ok (⟨source, target, w⟩ : Edge W)
  rwa [List.append_nil] at hedge

/-- Each objection names the line. -/
theorem line?_of_mem_objections {r : Record} {e : TextError W} (he : e ∈ objections weights r) :
    e.line? = some r.line := by
  simp only [objections, List.mem_append] at he
  obtain ((hmany | hsource) | htarget) | hweight := he
  · split at hmany
    · obtain rfl := List.mem_singleton.1 hmany
      rfl
    · cases hmany
  · exact Record.line?_of_mem_numberObjections hsource
  · exact Record.line?_of_mem_numberObjections htarget
  · rw [weightObjections] at hweight
    split at hweight
    · cases hweight
    split at hweight
    · obtain rfl := List.mem_singleton.1 hweight
      rfl
    split at hweight
    · cases hweight
    · obtain rfl := List.mem_singleton.1 hweight
      rfl

/-! ## Ids -/

/-- The edge list has an id for each end of the edges, which are written between labels, and joins
the ids of their ends. -/
structure Compresses (es : EdgeList W) (edges : List (Edge W)) : Prop where
  /-- The labels ascend. -/
  ascending : es.vertices.values.toList.Pairwise (· < ·)
  /-- They are the ends of the edges. -/
  mem_values : ∀ x, x ∈ es.vertices.values ↔ ∃ e ∈ edges, x = e.source ∨ x = e.target
  /-- Each edge is kept, between the ids of its ends. -/
  edges_eq : List.Forall₂ (fun written e : Edge W =>
    es.vertices.values[e.source]? = some written.source ∧
      es.vertices.values[e.target]? = some written.target ∧
      e.weight = written.weight) edges es.edges
  /-- A label has the id at which it stands. -/
  id?_eq_some_iff : ∀ x i, es.id? x = some i ↔ es.vertices.values[i]? = some x

omit [Weight W] in
theorem compresses_ofLabelled (edges : List (Edge W)) : (ofLabelled edges).Compresses edges where
  ascending := Ranking.values_pairwise _
  mem_values x := by
    rw [mem_vertices_ofLabelled, labels, List.mem_flatMap]
    simp
  edges_eq := by
    have hrank : ∀ x ∈ labels edges, (ofLabelled edges).vertices.values[
        (ofLabelled edges).vertices.rank x]? = some x := fun x hx => by
      obtain ⟨i, hi, hvalue, hrank⟩ := Ranking.exists_values hx
      have hi' : (ofLabelled edges).vertices.rank x = i := hrank
      rw [hi', Array.getElem?_eq_some_iff]
      exact ⟨hi, hvalue⟩
    have hends : ∀ e ∈ edges, ∀ x ∈ [e.source, e.target], x ∈ labels edges := fun e he x hx =>
      List.mem_flatMap.2 ⟨e, he, hx⟩
    refine List.forall₂_map_right_iff.2 (List.forall₂_same.2 fun e he => ⟨?_, ?_, rfl⟩)
    · exact hrank _ (hends e he _ (by simp))
    · exact hrank _ (hends e he _ (by simp))
  id?_eq_some_iff _ _ := Ranking.find?_eq_some_iff (Ranking.values_pairwise _)

omit [Weight W] in
theorem size_ofLabelled (edges : List (Edge W)) :
    (ofLabelled edges).size = (labels edges).toFinset.card :=
  Ranking.size_eq_card (labels edges)

/-! ## Texts -/

theorem read_eq_ok_iff_yields (hone : Weight.Valid (1 : W)) {bytes : ByteArray} {es : EdgeList W} :
    read weights ⟨bytes, none⟩ = .ok es ↔ ∃ edges, Yields (Writes weights) (linesOf bytes) edges ∧
      (labels edges).toFinset.card < idBound ∧ es = ofLabelled edges := by
  rw [read, bind_eq_ok_iff]
  simp only [Source.mapRecords_eq_ok_iff_yields (readEdge_eq_ok_iff_writes hone)]
  refine exists_congr fun edges => and_congr_right fun _ => ?_
  rw [← size_ofLabelled]
  split
  · next h => simp [h, eq_comm]
  · next h => simp [h]

theorem read_eq_error_iff (hone : Weight.Valid (1 : W)) {bytes : ByteArray} {e : TextError W} :
    read weights ⟨bytes, none⟩ = .error e ↔
      (∃ before line after edges, linesOf bytes = before ++ line :: after ∧
        Yields (Writes weights) before edges ∧
        Rejects (objections weights) (before.length + 1) line e) ∨
      ∃ edges, Yields (Writes weights) (linesOf bytes) edges ∧
        idBound ≤ (labels edges).toFinset.card ∧
        e = .tooManyVertices (labels edges).toFinset.card := by
  rw [read, bind_eq_error_iff,
    Source.mapRecords_eq_error_iff (readEdge_eq_ok_iff_writes hone) (heeds_readEdge hone)]
  simp only [Source.mapRecords_eq_ok_iff_yields (readEdge_eq_ok_iff_writes hone)]
  refine or_congr_right (exists_congr fun edges => and_congr_right fun _ => ?_)
  rw [← size_ofLabelled]
  split
  · next h => simp [h]
  · next h => simp [Nat.not_lt.1 h, eq_comm]

/-- A text is read exactly if each of its lines shows nothing or writes an edge, and there are no
more vertices than 32-bit ids; then each label has the id at which it stands among the ascending
ones, and the edges are joined anew by ids. Else the error is that of the first line that is
rejected, and names its number unless the line is no UTF-8. -/
theorem read_grammar (hone : Weight.Valid (1 : W)) (weights : WeightText W) (bytes : ByteArray) :
    ((∃ es, read weights ⟨bytes, none⟩ = .ok es) ↔
      ∃ edges, Yields (Writes weights) (linesOf bytes) edges ∧
        (labels edges).toFinset.card < idBound) ∧
    (∀ es, read weights ⟨bytes, none⟩ = .ok es →
      ∃ edges, Yields (Writes weights) (linesOf bytes) edges ∧ es.Compresses edges) ∧
    (∀ e, read weights ⟨bytes, none⟩ = .error e ↔
      (∃ before line after edges, linesOf bytes = before ++ line :: after ∧
        Yields (Writes weights) before edges ∧
        Rejects (objections weights) (before.length + 1) line e) ∨
      ∃ edges, Yields (Writes weights) (linesOf bytes) edges ∧
        idBound ≤ (labels edges).toFinset.card ∧
        e = .tooManyVertices (labels edges).toFinset.card) ∧
    ∀ number line e, Rejects (objections weights) number line e →
      e = .invalidUtf8 ∨ ∃ cause, e.message weights = atLine number cause := by
  refine ⟨⟨?_, ?_⟩, ?_, fun e => read_eq_error_iff hone, ?_⟩
  · rintro ⟨es, hes⟩
    obtain ⟨edges, hedges, hfew, -⟩ := (read_eq_ok_iff_yields hone).1 hes
    exact ⟨edges, hedges, hfew⟩
  · rintro ⟨edges, hedges, hfew⟩
    exact ⟨_, (read_eq_ok_iff_yields hone).2 ⟨edges, hedges, hfew, rfl⟩⟩
  · intro es hes
    obtain ⟨edges, hedges, -, rfl⟩ := (read_eq_ok_iff_yields hone).1 hes
    exact ⟨edges, hedges, compresses_ofLabelled edges⟩
  · rintro number line e (- | ⟨-, -, hfirst⟩)
    · exact .inl rfl
    · exact .inr (TextError.exists_message weights
        (line?_of_mem_objections (List.mem_of_mem_head? hfirst)))

/-- Doubles in decimal: a text that is read, and one of which the third line is rejected. -/
theorem read_grammar_decimal :
    Weight.Valid (1 : Float) ∧
    (∃ es, read .decimal ⟨"1 2\n# note\n7 +2 2.5 \n".toUTF8, none⟩ = .ok es) ∧
    read .decimal ⟨"1 2\n\n3 x -1\n".toUTF8, none⟩ = .error (.badField 3 ['x']) := by
  have hone : Weight.Valid (1 : Float) := by decide
  have hedge : Writes .decimal [['1'], ['2']] ⟨1, 2, 1⟩ :=
    .plain (number?_eq_some_iff.1 (by decide)) (number?_eq_some_iff.1 (by decide))
  obtain ⟨w, hw, hvalid⟩ : ∃ w, WeightText.decimal.read ['2', '.', '5'] = some w ∧ Weight.Valid w :=
    ⟨_, rfl, by decide⟩
  have hweighted : Writes .decimal [['7'], ['+', '2'], ['2', '.', '5']] ⟨7, 2, w⟩ :=
    .weighted (number?_eq_some_iff.1 (by decide)) (number?_eq_some_iff.1 (by decide)) hw hvalid
  have hfew : [1, 2, 7, 2].toFinset.card < idBound := by decide
  refine ⟨hone, (read_grammar hone _ _).1.2 ⟨[⟨1, 2, 1⟩, ⟨7, 2, w⟩], ?_, hfew⟩,
    ((read_grammar hone _ _).2.2.1 _).2 (.inl ⟨[encode ['1', ' ', '2'], []],
      encode ['3', ' ', 'x', ' ', '-', '1'], [[]], [⟨1, 2, 1⟩], ?_, ?_, ?_⟩)⟩
  · have hlines : linesOf "1 2\n# note\n7 +2 2.5 \n".toUTF8 =
        ["1 2", "# note", "7 +2 2.5 ", ""].map (encode ·.toList) := by
      rw [linesOf, toList_toUTF8]
      decide
    rw [hlines]
    exact .datum (shows_encode _) (by decide) hedge (.blank (shows_encode _)
      (.datum (shows_encode _) (by decide) hweighted (.blank (shows_encode _) .nil)))
  · rw [linesOf, toList_toUTF8]
    decide
  · exact .datum (shows_encode _) (by decide) hedge (.blank (shows_encode []) .nil)
  · exact .objection (shows_encode _) (by decide) (by decide)

end EdgeList

end Communities
