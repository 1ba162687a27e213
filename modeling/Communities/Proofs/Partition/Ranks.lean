import Communities.Proofs.Partition
import Mathlib.Data.Finset.Card

/-!
# Dense labels are ranks

What `Partition.ofLabels` gives a node is the number of distinct labels below its own. So the dense
labels keep the order of the given ones and depend on nothing else, none is skipped, and their
classes are the places of one given label each.

* `Ranking.size_eq_card` and `Ranking.rank_eq_card`: a ranking counts, without repetition.
* `Partition.labels_ofLabels` and `Partition.count_ofLabels_eq_card`: so do the dense labels.
* `Partition.ListsPlaces`: lists of the places of each label; `Partition.classes_ofLabels`: the
  classes are such lists.
* `Partition.ofLabels_ranks`: all of it, for any labels.
-/

namespace Communities

/-! ## Rankings count -/

namespace Ranking

variable {xs : List Nat} {x y : Nat}

theorem toFinset_values (xs : List Nat) : (ofList xs).values.toList.toFinset = xs.toFinset := by
  ext x
  rw [List.mem_toFinset, List.mem_toFinset, Array.mem_toList_iff, mem_values]

private theorem nodup_values (xs : List Nat) : (ofList xs).values.toList.Nodup :=
  (values_pairwise xs).imp fun h => Nat.ne_of_lt h

theorem size_eq_card (xs : List Nat) : (ofList xs).size = xs.toFinset.card := by
  rw [← toFinset_values, List.toFinset_card_of_nodup (nodup_values xs), Array.length_toList]
  rfl

theorem rank_eq_card (xs : List Nat) (x : Nat) :
    (ofList xs).rank x = (xs.toFinset.filter (· < x)).card := by
  have hfilter : xs.toFinset.filter (· < x) =
      ((ofList xs).values.toList.filter (· < x)).toFinset := by
    simp [List.toFinset_filter, toFinset_values]
  rw [rank_eq_countP (values_pairwise xs), List.countP_eq_length_filter, hfilter,
    List.toFinset_card_of_nodup ((nodup_values xs).filter _)]

theorem rank_lt_rank_iff (hx : x ∈ xs) : (ofList xs).rank x < (ofList xs).rank y ↔ x < y := by
  obtain ⟨i, hi, rfl, hrank⟩ := exists_values hx
  rw [hrank]
  exact lt_rank_iff (values_pairwise xs) hi

end Ranking

/-! ## Dense labels count -/

namespace Partition

variable {labels : Array Nat}

/-- The number of distinct labels below a bound. -/
def labelsBelow (labels : Array Nat) (x : Nat) : Nat :=
  (labels.toList.toFinset.filter (· < x)).card

theorem labels_ofLabels (labels : Array Nat) :
    (ofLabels labels).labels = labels.map (labelsBelow labels) :=
  Array.map_congr_left fun x _ => Ranking.rank_eq_card labels.toList x

theorem count_ofLabels_eq_card (labels : Array Nat) :
    (ofLabels labels).count = labels.toList.toFinset.card :=
  Ranking.size_eq_card labels.toList

/-- Two nodes compare as they did before. -/
theorem compare_ofLabels {u v : Nat} (hu : u < labels.size) (hv : v < labels.size) :
    ((ofLabels labels).labelAt u < (ofLabels labels).labelAt v ↔ labels[u] < labels[v]) ∧
    ((ofLabels labels).labelAt u = (ofLabels labels).labelAt v ↔ labels[u] = labels[v]) := by
  have hlabel : ∀ {w : Nat} (hw : w < labels.size), (ofLabels labels).labelAt w =
      (Ranking.ofList labels.toList).rank labels[w] := fun hw => by
    rw [labelAt_ofLabels hw, Array.getD, dif_pos hw]
    rfl
  have hmem : ∀ {w : Nat} (hw : w < labels.size), labels[w] ∈ labels.toList := fun hw =>
    Array.getElem_mem_toList hw
  rw [hlabel hu, hlabel hv]
  exact ⟨Ranking.rank_lt_rank_iff (hmem hu), Ranking.rank_inj (hmem hu) (hmem hv)⟩

/-- The lists are the places of one label each, by the rank of the label. -/
structure ListsPlaces (labels : Array Nat) (classes : Array (List Nat)) : Prop where
  /-- There is a list for each distinct label. -/
  size_eq : classes.size = labels.toList.toFinset.card
  /-- No list is empty. -/
  ne_nil : ∀ nodes ∈ classes, nodes ≠ []
  /-- Each list ascends. -/
  ascending : ∀ nodes ∈ classes, nodes.Pairwise (· < ·)
  /-- The list at place `c` has the places of a label with `c` labels below it. -/
  places : ∀ (c : Nat) (nodes : List Nat), classes[c]? = some nodes →
    ∃ x ∈ labels, labelsBelow labels x = c ∧ ∀ v : Nat, v ∈ nodes ↔ labels[v]? = some x

/-- The nodes with the dense label of a node are the places of its own label. -/
theorem exists_label_of_class {c : Nat} (hc : c < (ofLabels labels).count) :
    ∃ x ∈ labels, labelsBelow labels x = c ∧
      ∀ v : Nat, v ∈ (List.range labels.size).filter ((ofLabels labels).labelAt · = c) ↔
        labels[v]? = some x := by
  obtain ⟨u, hu, hlabel⟩ := exists_labelAt_ofLabels hc
  refine ⟨labels[u], Array.getElem_mem hu, ?_, fun v => ?_⟩
  · rw [← hlabel, labelAt_ofLabels hu, Ranking.rank_eq_card]
    simp [labelsBelow, hu]
  · rw [List.mem_filter, List.mem_range, decide_eq_true_eq, ← hlabel, Array.getElem?_eq_some_iff]
    constructor
    · rintro ⟨hv, hsame⟩
      exact ⟨hv, ((compare_ofLabels hv hu).2).1 hsame⟩
    · rintro ⟨hv, hsame⟩
      exact ⟨hv, ((compare_ofLabels hv hu).2).2 hsame⟩

/-- The classes can be listed if a table for that many lists can be held, and only then. -/
theorem classes_ofLabels :
    ((∃ classes, (ofLabels labels).classes = .ok classes) ↔
      24 * (ofLabels labels).count < tableBytes) ∧
    ∀ classes, (ofLabels labels).classes = .ok classes → ListsPlaces labels classes := by
  have hcovers := (fits_ofLabels (Eq.refl labels.size)).toCovers
  refine ⟨hcovers.exists_classes_iff, fun classes hclasses => ?_⟩
  have hclass : ∀ nodes ∈ classes, ∃ c < (ofLabels labels).count,
      nodes = (List.range labels.size).filter ((ofLabels labels).labelAt · = c) := by
    intro nodes hnodes
    obtain ⟨c, hc⟩ := Array.mem_iff_getElem?.1 hnodes
    exact ⟨c, (hcovers.getElem?_classes hclasses).1 hc⟩
  have hsize : classes.size = (ofLabels labels).count := by
    simpa using congrArg List.length (hcovers.toList_classes hclasses)
  refine ⟨hsize.trans (count_ofLabels_eq_card labels), fun nodes hmem => ?_,
    fun nodes hmem => ?_, fun c nodes hc => ?_⟩
  · obtain ⟨c, hc, rfl⟩ := hclass nodes hmem
    obtain ⟨x, hx, -, hplaces⟩ := exists_label_of_class hc
    obtain ⟨v, hv⟩ := Array.mem_iff_getElem?.1 hx
    exact List.ne_nil_of_mem ((hplaces v).2 hv)
  · obtain ⟨c, -, rfl⟩ := hclass nodes hmem
    exact List.pairwise_lt_range.filter _
  · obtain ⟨hlt, rfl⟩ := (hcovers.getElem?_classes hclasses).1 hc
    exact exists_label_of_class hlt

/-- Dense labels are the ranks of the given ones, which may be any numbers: they skip none, compare
as those do, and are the same again for dense labels and for labels that are mapped in order. Each
class lists the places of one given label. -/
theorem ofLabels_ranks (labels : Array Nat) :
    (ofLabels labels).labels = labels.map (labelsBelow labels) ∧
    (ofLabels labels).count = labels.toList.toFinset.card ∧
    (∀ c, c ∈ (ofLabels labels).labels ↔ c < (ofLabels labels).count) ∧
    (∀ (u v : Nat) (hu : u < labels.size) (hv : v < labels.size),
      ((ofLabels labels).labelAt u < (ofLabels labels).labelAt v ↔ labels[u] < labels[v]) ∧
      ((ofLabels labels).labelAt u = (ofLabels labels).labelAt v ↔ labels[u] = labels[v])) ∧
    ofLabels (ofLabels labels).labels = ofLabels labels ∧
    (∀ f, StrictMonoOn f {x | x ∈ labels} → ofLabels (labels.map f) = ofLabels labels) ∧
    ((∃ classes, (ofLabels labels).classes = .ok classes) ↔
      24 * (ofLabels labels).count < tableBytes) ∧
    ∀ classes, (ofLabels labels).classes = .ok classes → ListsPlaces labels classes :=
  ⟨labels_ofLabels labels, count_ofLabels_eq_card labels, fun _ => mem_labels_ofLabels,
    fun _ _ => compare_ofLabels, ofLabels_ofLabels labels, fun _ => ofLabels_map,
    classes_ofLabels⟩

/-- Five nodes with three distinct labels, far from each other. -/
theorem ofLabels_ranks_sparse :
    ∃ labels : Array Nat, labels = #[1000000, 7, 7, 18446744073709551615, 1000000] ∧
      ofLabels labels = ⟨#[1, 0, 0, 2, 1], 3⟩ ∧
      StrictMonoOn (2 * · + 1) {x | x ∈ labels} ∧
      ofLabels (labels.map (2 * · + 1)) = ofLabels labels ∧
      ∃ classes, (ofLabels labels).classes = .ok classes ∧ ListsPlaces labels classes := by
  obtain ⟨hlabels, hcount, -, -, -, hmap, hlisted, hplaces⟩ :=
    ofLabels_ranks #[1000000, 7, 7, 18446744073709551615, 1000000]
  have hdense : ofLabels #[1000000, 7, 7, 18446744073709551615, 1000000] =
      ⟨#[1, 0, 0, 2, 1], 3⟩ :=
    congrArg₂ mk (hlabels.trans (by decide +kernel)) (hcount.trans (by decide))
  have hmono : StrictMonoOn (2 * · + 1)
      {x | x ∈ #[1000000, 7, 7, 18446744073709551615, 1000000]} := fun x _ y _ hxy => by
    dsimp only
    omega
  obtain ⟨classes, hclasses⟩ := hlisted.2 (by rw [hdense]; decide)
  exact ⟨_, rfl, hdense, hmono, hmap _ hmono, classes, hclasses, hplaces classes hclasses⟩

end Partition

end Communities
