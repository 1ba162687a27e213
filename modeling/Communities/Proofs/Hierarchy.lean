import Communities.Hierarchy
import Communities.Proofs.Loop

/-!
# Partitions level by level

The partition at a level of a hierarchy comes from carrying the labels of the vertices through the
levels up to it, one after the other.

* `Hierarchy.compose_eq_ok_iff`: carrying labels through one level applies it to each of them;
  `Hierarchy.exists_compose`: to all labels of the level, if each is used.
* `Hierarchy.follow` carries labels through several levels, and `Hierarchy.partitionAt_eq`: a
  partition is where that leads the labels of the first level; `Hierarchy.finalPartition_eq`: the
  last one is where they lead through all levels.
-/

namespace Communities

namespace Hierarchy

theorem compose_eq_ok {fine coarse : Array Nat} (h : ∀ x ∈ fine, x < coarse.size) :
    compose fine coarse = .ok (fine.map (coarse.getD · 0)) :=
  arrayMapM_eq_ok fun x hx => by
    rw [fetch_of_lt (h x hx), Array.getD, dif_pos (h x hx)]
    rfl

theorem compose_eq_ok_iff {fine coarse labels : Array Nat} : compose fine coarse = .ok labels ↔
    (∀ x ∈ fine, x < coarse.size) ∧ labels = fine.map (coarse.getD · 0) := by
  constructor
  · intro h
    rw [compose, Array.mapM_eq_mapM_toList] at h
    obtain ⟨entries, hentries, -⟩ := map_eq_ok_iff.1 h
    have hlt : ∀ x ∈ fine, x < coarse.size := fun x hx => by
      obtain ⟨y, hy⟩ := exists_of_mapM hentries x (Array.mem_toList_iff.2 hx)
      exact (Array.getElem?_eq_some_iff.1 (fetch_eq_ok_iff.1 hy)).1
    rw [← Array.mapM_eq_mapM_toList, ← compose, compose_eq_ok hlt] at h
    exact ⟨hlt, (Except.ok.inj h).symm⟩
  · rintro ⟨hlt, rfl⟩
    exact compose_eq_ok hlt

/-- Labels that use each label of a level carry over to what that uses, and nodes together stay
together. -/
theorem exists_compose {fine coarse : Array Nat} (h : ∀ x, x ∈ fine ↔ x < coarse.size) :
    ∃ labels, compose fine coarse = .ok labels ∧ labels.size = fine.size ∧
      (∀ x, x ∈ labels ↔ x ∈ coarse) ∧
      ∀ u v : Nat, fine[u]? = fine[v]? → labels[u]? = labels[v]? := by
  refine ⟨_, compose_eq_ok fun x hx => (h x).1 hx, Array.size_map, fun x => ?_, fun u v huv => ?_⟩
  · rw [Array.mem_map, Array.mem_iff_getElem]
    constructor
    · rintro ⟨y, hy, rfl⟩
      have hlt := (h y).1 hy
      exact ⟨y, hlt, by simp [Array.getD, hlt]⟩
    · rintro ⟨y, hy, rfl⟩
      exact ⟨y, (h y).2 hy, by simp [Array.getD, hy]⟩
  · rw [Array.getElem?_map, Array.getElem?_map, huv]

/-- A level carries the nodes themselves to its labels. -/
theorem compose_range (labels : Array Nat) : compose (.range labels.size) labels = .ok labels := by
  rw [compose_eq_ok fun x hx => Array.mem_range.1 hx]
  congr 1
  apply Array.ext
  · simp
  · intro i h₁ h₂
    simp [h₂]

/-- A level that labels the nodes by themselves changes nothing. -/
theorem compose_to_range {fine : Array Nat} {n : Nat} (h : ∀ x ∈ fine, x < n) :
    compose fine (.range n) = .ok fine := by
  rw [compose_eq_ok fun x hx => Array.size_range.symm ▸ h x hx]
  conv_rhs => rw [← Array.map_id fine]
  refine congrArg Except.ok (Array.map_congr_left fun x hx => ?_)
  simp [h x hx]

variable {W : Type}

/-- Labels carried through the levels of a list. -/
def follow (levels : List (Level W)) (fine : Array Nat) : Except Fault (Array Nat) :=
  levels.foldlM (fun labels level => compose labels level.labels) fine

theorem follow_cons (level : Level W) (levels : List (Level W)) (fine : Array Nat) :
    follow (level :: levels) fine = compose fine level.labels >>= follow levels := rfl

theorem follow_concat (levels : List (Level W)) (level : Level W) (fine : Array Nat) :
    follow (levels ++ [level]) fine = follow levels fine >>= (compose · level.labels) := by
  rw [follow, List.foldlM_append, follow]
  congr 1
  funext labels
  exact bind_pure _

theorem partitionAt_eq {first : Level W} {rest : List (Level W)} {coarse : Option (Network W)}
    {k : Nat} (hk : k < (first :: rest).length) :
    partitionAt ⟨first :: rest, coarse⟩ k = some <$> follow (rest.take k) first.labels := by
  rw [partitionAt, List.take_succ_cons]
  exact if_pos hk

/-- The partition at a level is that of the level before it, carried through the level. -/
theorem partitionAt_succ {h : Hierarchy W} {k : Nat} {level : Level W} {fine : Array Nat}
    (hlevel : h.levels[k + 1]? = some level) (hfine : h.partitionAt k = .ok (some fine)) :
    h.partitionAt (k + 1) = some <$> compose fine level.labels := by
  obtain ⟨levels, coarse⟩ := h
  obtain ⟨hk, -⟩ := List.getElem?_eq_some_iff.1 hlevel
  cases levels with
  | nil => exact absurd hk (Nat.not_lt_zero _)
  | cons first rest =>
    have hrest : rest.take (k + 1) = rest.take k ++ [level] := by
      rw [List.take_add_one, ← List.getElem?_cons_succ (a := first), hlevel]
      rfl
    rw [partitionAt_eq (Nat.lt_of_succ_lt hk)] at hfine
    obtain ⟨labels, hlabels, hsame⟩ := map_eq_ok_iff.1 hfine
    cases hsame
    rw [partitionAt_eq hk, hrest, follow_concat, hlabels, ok_bind]

theorem partitionAt_eq_none {h : Hierarchy W} {k : Nat} (hk : h.levels.length ≤ k) :
    h.partitionAt k = .ok none := by
  rw [partitionAt]
  split
  · rfl
  · exact if_neg (Nat.not_lt.2 hk)

/-- The partition at the last level is where all levels lead. -/
theorem finalPartition_eq {first : Level W} {rest : List (Level W)} {coarse : Option (Network W)} :
    finalPartition ⟨first :: rest, coarse⟩ = follow rest first.labels := by
  rw [finalPartition, List.length_cons, Nat.add_sub_cancel, partitionAt_eq (Nat.lt_succ_self _),
    List.take_length]
  cases follow rest first.labels <;> rfl

theorem modularity_eq_getLastD [Weight W] {h : Hierarchy W} (hne : h.levels ≠ []) (q : W) :
    h.modularity = (h.levels.map (·.modularity)).getLastD q := by
  rw [modularity, List.getLast?_eq_some_getLast hne, List.getLastD_eq_getLast?, List.getLast?_map,
    List.getLast?_eq_some_getLast hne]
  rfl

end Hierarchy

end Communities
