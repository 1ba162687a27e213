import Communities.LocalSearch.Tally
import Communities.Proofs.Network.Condense
import Communities.Proofs.Roster

/-!
# What a tally holds

While a node looks around, the tally gathers the weight of its links community by community;
afterwards the entries it has touched, and so all of them, are blank again. Both hold in any
arithmetic.

* `Tally.Records`: the entries of a tally after some links have been recorded.
* `Tally.collect_eq_ok`: after all links of a node, each community has the sum of the links to it.
* `Tally.clear_eq_ok`: clearing a tally leaves nothing behind.
-/

namespace Communities

variable {W : Type} [Weight W]

/-- The links of a node to other nodes, as the communities these are in and the weights. -/
def Network.linksOut (net : Network W) (r : Roster W) (v : Nat) : List (Nat × W) :=
  ((net.row v).filter (·.target ≠ v)).map fun link => (r.communityAt link.target, link.weight)

/-- The weights that go with community `c`. -/
def weightsTo (links : List (Nat × W)) (c : Nat) : List W :=
  (links.filter (·.1 = c)).map (·.2)

namespace Tally

/-- Nothing is entered in a tally for `n` communities. -/
structure Clear (t : Tally W) (n : Nat) : Prop where
  /-- No weight. -/
  weights_eq : t.weights = Array.replicate n 0
  /-- No community. -/
  touched_eq : t.touched = Array.replicate n false

/-- What a tally for `n` communities holds after the given links. -/
structure Records (t : Tally W) (n : Nat) (links : List (Nat × W)) : Prop where
  /-- Each community has the sum of its weights. -/
  weights_eq : ∀ c < n, t.weights[c]? = some (Weight.sum (weightsTo links c))
  /-- Each community that has a link is touched. -/
  touched_eq : ∀ c < n, t.touched[c]? = some (decide (c ∈ links.map (·.1)))
  /-- There is an entry for each community. -/
  size_weights : t.weights.size = n
  /-- There is a mark for each community. -/
  size_touched : t.touched.size = n
  /-- No community is listed twice. -/
  nodup : t.adjacent.Nodup
  /-- The listed communities are those that have a link. -/
  mem_adjacent : ∀ c, c ∈ t.adjacent ↔ c ∈ links.map (·.1)

theorem clear_blank (t : Tally W) (n : Nat) : (t.blank n).Clear n :=
  ⟨reuse_eq _ _ _, reuse_eq _ _ _⟩

private theorem Clear.records {t : Tally W} {n : Nat} (h : t.Clear n) :
    Records { t with adjacent := [] } n [] where
  weights_eq c hc := by rw [h.weights_eq]; simp [hc, weightsTo]
  touched_eq c hc := by rw [h.touched_eq]; simp [hc]
  size_weights := by rw [h.weights_eq]; simp
  size_touched := by rw [h.touched_eq]; simp
  nodup := .nil
  mem_adjacent c := by simp

omit [Weight W] in
private theorem weightsTo_concat (links : List (Nat × W)) (c c' : Nat) (w : W) :
    weightsTo (links ++ [(c, w)]) c' =
      if c = c' then weightsTo links c' ++ [w] else weightsTo links c' := by
  by_cases h : c = c' <;> simp [weightsTo, h]

private theorem record_eq_ok {t : Tally W} {n c : Nat} {links : List (Nat × W)}
    (h : t.Records n links) (hc : c < n) (w : W) :
    ∃ t', t.record c w = .ok t' ∧ t'.Records n (links ++ [(c, w)]) := by
  have hw : c < t.weights.size := h.size_weights.symm ▸ hc
  have ht : c < t.touched.size := h.size_touched.symm ▸ hc
  have hweights : ∀ c' < n, (t.weights.modify c (· + w))[c']? =
      some (Weight.sum (weightsTo (links ++ [(c, w)]) c')) := by
    intro c' hc'
    rw [Array.getElem?_modify, h.weights_eq c' hc', weightsTo_concat]
    split
    · rw [Option.map_some, Weight.sum_concat]
    · rfl
  rw [record, adjust_of_lt _ hw, ok_bind, fetch_eq_ok_iff.2 (h.touched_eq c hc), ok_bind]
  by_cases hmem : c ∈ links.map (·.1)
  · rw [if_pos (decide_eq_true hmem)]
    refine ⟨_, rfl, hweights, fun c' hc' => ?_, by simpa using h.size_weights, h.size_touched,
      h.nodup, fun c' => ?_⟩
    · rw [h.touched_eq c' hc', List.map_append]
      congr 1
      by_cases hcc : c' = c
      · subst hcc; simp_all
      · simp [hcc]
    · rw [h.mem_adjacent, List.map_append, List.mem_append]
      refine ⟨.inl, fun h' => h'.elim id fun h' => ?_⟩
      simp only [List.map_cons, List.map_nil, List.mem_singleton] at h'
      rwa [h']
  · rw [if_neg (by simpa using hmem), adjust_of_lt _ ht, ok_bind]
    refine ⟨_, rfl, hweights, fun c' hc' => ?_, by simpa using h.size_weights,
      by simpa using h.size_touched,
      List.nodup_cons.2 ⟨fun h' => hmem ((h.mem_adjacent c).1 h'), h.nodup⟩, fun c' => ?_⟩
    · rw [Array.getElem?_modify, h.touched_eq c' hc', List.map_append]
      by_cases hcc : c = c'
      · subst hcc; simp
      · rw [if_neg hcc]
        congr 1
        simp [Ne.symm hcc]
    · rw [List.mem_cons, h.mem_adjacent, List.map_append, List.mem_append]
      simp only [List.map_cons, List.map_nil, List.mem_singleton]
      exact or_comm

theorem collect_eq_ok {t : Tally W} {net : Network W} {r : Roster W} {v : Nat}
    (ht : t.Clear r.capacity) (hnet : net.Canonical) (hr : r.Indexes net.size)
    (hv : v < net.size) :
    ∃ t', t.collect net r v = .ok t' ∧ t'.Records r.capacity (net.linksOut r v) := by
  rw [collect, hnet.links_eq hv, ok_bind]
  refine exists_foldlM (fun (done : List (Link W)) (t : Tally W) => t.Records r.capacity
    ((done.filter (·.target ≠ v)).map fun link => (r.communityAt link.target, link.weight)))
    ht.records fun done link rest hrow t ht => ?_
  have hlink : link ∈ net.row v := by rw [hrow]; simp
  have htarget := hnet.target_lt_of_mem_row hv hlink
  by_cases hloop : link.target = v
  · exact ⟨t, by rw [if_pos hloop]; rfl, by simpa [List.filter_append, hloop] using ht⟩
  · obtain ⟨t', hrecord, ht'⟩ :=
      record_eq_ok ht (hr.communityAt_lt _ htarget) link.weight
    refine ⟨t', ?_, by simpa [List.filter_append, hloop] using ht'⟩
    rw [if_neg hloop, hr.community_eq htarget, ok_bind, hrecord]

private theorem foldl_const {α β : Type} (xs : List α) (b c : β) :
    xs.foldl (fun _ _ => c) b = if xs = [] then b else c := by
  induction xs generalizing b with
  | nil => rfl
  | cons x xs ih => rw [List.foldl_cons, ih]; simp

/-- Setting back the listed entries sets back all, if the others are blank already. -/
private theorem foldlM_reset {β : Type} (blank : β) {table : Array β} {n : Nat} {listed : List Nat}
    (hsize : table.size = n) (hlisted : ∀ c ∈ listed, c < n)
    (hblank : ∀ c < n, c ∉ listed → table[c]? = some blank) :
    listed.foldlM (fun table c => adjust table c fun _ => blank) table =
      .ok (Array.replicate n blank) := by
  refine (foldlM_adjust (fun c => c) (fun _ _ => blank)
    fun c hc => hsize ▸ hlisted c hc).trans ?_
  congr 1
  apply Array.ext_getElem?
  intro c
  rw [getElem?_foldl_modify (fun c => c) (fun _ _ => blank)]
  simp only [foldl_const]
  by_cases hc : c < n
  · have hget : table[c]? = some table[c] := Array.getElem?_eq_getElem _
    by_cases hmem : c ∈ listed
    · have hne : listed.filter (fun x => decide (x = c)) ≠ [] := by
        simpa [List.filter_eq_nil_iff] using hmem
      rw [hget, Option.map_some, if_neg hne]
      simp [hc]
    · have hnil : listed.filter (fun x => decide (x = c)) = [] := by
        simpa [List.filter_eq_nil_iff] using fun x hx (h : x = c) => hmem (h ▸ hx)
      rw [hblank c hc hmem, Option.map_some, if_pos hnil]
      simp [hc]
  · rw [Array.getElem?_eq_none (by omega), Array.getElem?_eq_none (by simpa using hc)]
    rfl

theorem clear_eq_ok {t : Tally W} {n : Nat} {links : List (Nat × W)} (h : t.Records n links)
    (hlinks : ∀ c ∈ links.map (·.1), c < n) : ∃ t', t.clear = .ok t' ∧ t'.Clear n := by
  have hlisted : ∀ c ∈ t.adjacent, c < n := fun c hc => hlinks c ((h.mem_adjacent c).1 hc)
  have hweights := foldlM_reset (0 : W) h.size_weights hlisted fun c hc hnot => by
    have hnone : weightsTo links c = [] := by
      rw [h.mem_adjacent] at hnot
      simp only [weightsTo, List.map_eq_nil_iff, List.filter_eq_nil_iff, decide_eq_true_eq]
      exact fun x hx hxc => hnot (hxc ▸ List.mem_map_of_mem hx)
    rw [h.weights_eq c hc, hnone, Weight.sum_nil]
  have htouched := foldlM_reset false h.size_touched hlisted fun c hc hnot => by
    rw [h.touched_eq c hc, decide_eq_false (mt (h.mem_adjacent c).2 hnot)]
  exact ⟨_, by rw [clear, hweights, ok_bind, htouched, ok_bind]; rfl, rfl, rfl⟩

end Tally

end Communities
