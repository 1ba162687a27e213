import Communities.Proofs.Partition
import Mathlib.Data.List.Nodup
import Mathlib.Order.Bounds.Basic

/-!
# Partitions under change

The count of a partition is a bound on its labels that is raised where a new label asks for it, and
never lowered: labels can be overwritten, or be left unused, and the bound stays. However the nodes
are relabelled, it is one more than the largest label that was ever given, or what it was at first
if that is more, and the classes list each node once.

* `Partition.relabel`: nodes relabelled one after the other. `Partition.Made`: the partitions that
  this can begin with.
* `Partition.exists_set`: what one node relabelled does; `Partition.exists_relabel`: what all do.
* `Partition.ListsNodes`: lists of the nodes of each label; `Partition.Covers.listsNodes`: the
  classes are such lists.
* `Partition.relabel_keeps`: all of it.
-/

namespace Communities

namespace Partition

variable {p q mid : Partition} {n v c : Nat} {changes done rest : List (Nat × Nat)}

/-- Nodes relabelled one after the other, each with a label of its own. -/
def relabel (p : Partition) (changes : List (Nat × Nat)) : Except Fault Partition :=
  changes.foldlM (fun p (node, label) => p.set node label) p

/-- The partitions that have not been changed. -/
inductive Made : Partition → Prop
  /-- No nodes. -/
  | empty : Made .empty
  /-- Every node alone. -/
  | singletons (n : Nat) : Made (.singletons n)
  /-- Dense labels in the order of given ones. -/
  | ofLabels (labels : Array Nat) : Made (.ofLabels labels)

theorem Made.covers (h : Made p) : p.Covers p.size := by
  cases h with
  | empty => exact ⟨rfl, fun v hv => absurd hv (Nat.not_lt_zero v)⟩
  | singletons n =>
    rw [size_singletons]
    exact (fits_singletons n).toCovers
  | ofLabels labels =>
    rw [size_ofLabels]
    exact (fits_ofLabels rfl).toCovers

/-! ## Changes -/

/-- The greatest of the count that `p` has and the counts that the changes ask for. -/
def Raised (p : Partition) (changes : List (Nat × Nat)) (count : Nat) : Prop :=
  IsGreatest {m | m = p.count ∨ ∃ change ∈ changes, m = change.2 + 1} count

theorem raised_nil (p : Partition) : p.Raised [] p.count :=
  ⟨.inl rfl, fun m hm => by
    rcases hm with rfl | ⟨_, h, -⟩
    · exact Nat.le_refl _
    · cases h⟩

theorem Raised.concat {count : Nat} (h : p.Raised changes count) (v c : Nat) :
    p.Raised (changes ++ [(v, c)]) (max count (c + 1)) := by
  have hset : {m | m = p.count ∨ ∃ change ∈ changes ++ [(v, c)], m = change.2 + 1} =
      insert (c + 1) {m | m = p.count ∨ ∃ change ∈ changes, m = change.2 + 1} := by
    ext m
    simp only [Set.mem_ofPred_eq, Set.mem_insert_iff, List.mem_append, List.mem_singleton]
    constructor
    · rintro (h | ⟨change, h | rfl, rfl⟩)
      · exact .inr (.inl h)
      · exact .inr (.inr ⟨change, h, rfl⟩)
      · exact .inl rfl
    · rintro (rfl | h | ⟨change, h, rfl⟩)
      · exact .inr ⟨_, .inr rfl, rfl⟩
      · exact .inl h
      · exact .inr ⟨change, .inl h, rfl⟩
  rw [Raised, hset, max_comm]
  exact h.insert (c + 1)

/-- A node that there is can be given any label that has a successor. -/
theorem exists_set (h : p.Covers n) (hv : v < n) (hc : c + 1 < countBound) :
    ∃ q, p.set v c = .ok q ∧ q.Covers n ∧ q.count = max p.count (c + 1) ∧
      q.labelAt = Function.update p.labelAt v c := by
  have hset : p.set v c = .ok ⟨p.labels.setIfInBounds v c, max p.count (c + 1)⟩ :=
    set_eq_ok_iff.2 ⟨h.size_eq.symm ▸ hv, .inr hc, rfl⟩
  exact ⟨_, hset, h.set hset, rfl, labelAt_set hset⟩

/-- Every node ends with the last label that it is given, or keeps the one it has. -/
theorem exists_relabel (h : p.Covers n)
    (hchanges : ∀ change ∈ changes, change.1 < n ∧ change.2 + 1 < countBound) :
    ∃ q, p.relabel changes = .ok q ∧ q.Covers n ∧ p.Raised changes q.count ∧
      ∀ v, q.labelAt v = (changes.reverse.lookup v).getD (p.labelAt v) := by
  refine exists_foldlM (fun done (q : Partition) => q.Covers n ∧ p.Raised done q.count ∧
    ∀ v, q.labelAt v = (done.reverse.lookup v).getD (p.labelAt v))
    ⟨h, raised_nil p, fun v => rfl⟩ fun done change rest hsplit q ⟨hq, hraised, hlabel⟩ => ?_
  obtain ⟨hv, hc⟩ := hchanges change (by rw [hsplit]; simp)
  obtain ⟨q', hset, hq', hcount, hlabel'⟩ := exists_set hq hv hc
  refine ⟨q', hset, hq', hcount ▸ hraised.concat change.1 change.2, fun v => ?_⟩
  rw [hlabel', Function.update_apply, hlabel v, List.reverse_append, List.reverse_singleton,
    List.singleton_append, List.lookup_cons]
  by_cases hv : v = change.1
  · rw [if_pos hv, hv, beq_self_eq_true]
    rfl
  · rw [if_neg hv, beq_false_of_ne hv]

/-- Changes only raise the count. -/
theorem count_le_of_relabel (h : p.relabel changes = .ok q) : p.count ≤ q.count := by
  refine foldlM_preserves (fun q => p.count ≤ q.count) (fun q change q' hq hset => ?_) h
    (Nat.le_refl _)
  obtain ⟨-, -, rfl⟩ := set_eq_ok_iff.1 hset
  exact Nat.le_trans hq (Nat.le_max_left _ _)

theorem relabel_append : p.relabel (done ++ rest) = p.relabel done >>= (·.relabel rest) :=
  List.foldlM_append

/-! ## Classes -/

/-- The lists are those of the nodes of each label. -/
structure ListsNodes (p : Partition) (classes : Array (List Nat)) : Prop where
  /-- There is a list for each label below `count`. -/
  size_eq : classes.size = p.count
  /-- Each list ascends. -/
  ascending : ∀ nodes ∈ classes, nodes.Pairwise (· < ·)
  /-- A list has the nodes of its label. -/
  mem_iff : ∀ c nodes, classes[c]? = some nodes → ∀ v, v ∈ nodes ↔ p.label v = .ok c
  /-- All lists together have each node once. -/
  once : classes.toList.flatten.Perm (List.range p.size)

theorem Covers.label_eq_ok_iff (h : p.Covers n) : p.label v = .ok c ↔ v < n ∧ p.labelAt v = c := by
  by_cases hv : v < n
  · rw [h.label_eq hv, Except.ok.injEq]
    exact (and_iff_right hv).symm
  · have hout : p.label v = .error .outOfRange :=
      fetch_eq_error_iff.2 ⟨h.size_eq.symm ▸ Nat.not_lt.1 hv, rfl⟩
    simp [hout, hv]

/-- The nodes below `n`, sorted by labels below `count`. -/
private theorem flatMap_perm_range {f : Nat → Nat} {count : Nat} (hf : ∀ v < n, f v < count) :
    ((List.range count).flatMap fun c => (List.range n).filter (f · = c)).Perm (List.range n) := by
  refine (List.perm_ext_iff_of_nodup (List.nodup_flatMap.2 ⟨fun c _ => ?_, ?_⟩)
    List.nodup_range).2 fun v => ?_
  · exact List.nodup_range.filter _
  · refine List.nodup_range.imp fun {c c'} hne v hv hv' => hne ?_
    simp only [List.mem_filter, decide_eq_true_eq] at hv hv'
    exact hv.2.symm.trans hv'.2
  · simp only [List.mem_flatMap, List.mem_filter, List.mem_range, decide_eq_true_eq]
    constructor
    · rintro ⟨c, -, hv, -⟩
      exact hv
    · exact fun hv => ⟨f v, hf v hv, hv, rfl⟩

theorem Covers.listsNodes (h : p.Covers n) {classes : Array (List Nat)}
    (hclasses : p.classes = .ok classes) : p.ListsNodes classes := by
  have hlist := h.toList_classes hclasses
  refine ⟨by simpa using congrArg List.length hlist, fun nodes hnodes => ?_,
    fun c nodes hc v => ?_, ?_⟩
  · rw [← Array.mem_toList_iff, hlist] at hnodes
    obtain ⟨c, -, rfl⟩ := List.mem_map.1 hnodes
    exact List.pairwise_lt_range.filter _
  · obtain ⟨-, rfl⟩ := (h.getElem?_classes hclasses).1 hc
    rw [h.label_eq_ok_iff, List.mem_filter, List.mem_range, decide_eq_true_eq]
  · rw [hlist, ← List.flatMap_def, size, h.size_eq]
    exact flatMap_perm_range h.labelAt_lt

/-- However the nodes of a partition are relabelled, each ends with a label below the count. The
count is the greatest of what it was at first and one more than each label given, and is never
lowered on the way. The classes list the nodes of each label, ascending, and each node once; a table
that can be held is all that they ask for. -/
theorem relabel_keeps (hp : Made p)
    (hchanges : ∀ change ∈ changes, change.1 < p.size ∧ change.2 + 1 < countBound) :
    ∃ q, p.relabel changes = .ok q ∧ q.size = p.size ∧
      (∀ v < p.size, ∃ c < q.count, q.label v = .ok c ∧
        c = (changes.reverse.lookup v).getD (p.labelAt v)) ∧
      p.Raised changes q.count ∧
      (∀ done rest mid, changes = done ++ rest → p.relabel done = .ok mid →
        p.count ≤ mid.count ∧ mid.count ≤ q.count) ∧
      ((∃ classes, q.classes = .ok classes) ↔ 24 * q.count < tableBytes) ∧
      ∀ classes, q.classes = .ok classes → q.ListsNodes classes := by
  obtain ⟨q, hq, hcovers, hraised, hlabel⟩ := exists_relabel hp.covers hchanges
  refine ⟨q, hq, hcovers.size_eq, fun v hv => ?_, hraised, ?_, hcovers.exists_classes_iff,
    fun classes => hcovers.listsNodes⟩
  · exact ⟨q.labelAt v, hcovers.labelAt_lt v hv, hcovers.label_eq hv, hlabel v⟩
  · rintro done rest mid rfl hmid
    rw [relabel_append, hmid, ok_bind] at hq
    exact ⟨count_le_of_relabel hmid, count_le_of_relabel hq⟩

/-- Three nodes, of which one gets a label far above the others and is then brought back. -/
theorem relabel_keeps_three :
    Made (.singletons 3) ∧
    (∀ change ∈ [(2, 0), (1, 5), (1, 0)], change.1 < (singletons 3).size ∧
      change.2 + 1 < countBound) ∧
    ∃ q, (singletons 3).relabel [(2, 0), (1, 5), (1, 0)] = .ok q ∧ q = ⟨#[0, 0, 0], 6⟩ ∧
      (singletons 3).Raised [(2, 0), (1, 5), (1, 0)] q.count ∧
      ∃ classes, q.classes = .ok classes ∧ q.ListsNodes classes := by
  have hmade : Made (.singletons 3) := .singletons 3
  have hchanges : ∀ change ∈ [(2, 0), (1, 5), (1, 0)], change.1 < (singletons 3).size ∧
      change.2 + 1 < countBound := by decide
  obtain ⟨q, hq, -, -, hraised, -, hlisted, hlists⟩ := relabel_keeps hmade hchanges
  have hvalue : (singletons 3).relabel [(2, 0), (1, 5), (1, 0)] = .ok ⟨#[0, 0, 0], 6⟩ := by decide
  obtain rfl := Except.ok.inj (hq.symm.trans hvalue)
  obtain ⟨classes, hclasses⟩ := hlisted.2 (by decide)
  exact ⟨hmade, hchanges, _, hq, rfl, hraised, classes, hclasses, hlists classes hclasses⟩

end Partition

end Communities
