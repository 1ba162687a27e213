import Communities.EdgeList.Seed
import Communities.Proofs.EdgeList

/-!
# Reading seeds

A seed is a list of vertices with their communities. It is accepted if it names each vertex of the
edge list once, and nothing else; then each vertex has the community named for it, whatever the order
in which they are named.

* `EdgeList.Names`: what a seed says about the vertices of an edge list.
* `EdgeList.readSeed_eq_ok_iff`: what is read from a text that holds a seed.
* `EdgeList.readSeed_rewritten`: vertices mapped in order have the same communities.
-/

namespace Communities

open Text

namespace EdgeList

variable {W : Type}

/-- The vertex and the community that a record names. -/
def named? : List (List Char) → Option (Nat × Nat)
  | vertex :: community :: _ => do return (← number? vertex, ← number? community)
  | _ => none

theorem named?_eq_some_iff {vertex community : List Char} {rest : List (List Char)} {p : Nat × Nat} :
    named? (vertex :: community :: rest) = some p ↔
      number? vertex = some p.1 ∧ number? community = some p.2 := by
  obtain ⟨v, c⟩ := p
  simp [named?, Option.bind_eq_some_iff]

/-- The labels are the communities of the pairs, which name each vertex once and nothing else. -/
structure Names (es : EdgeList W) (pairs : List (Nat × Nat)) (labels : Array Nat) : Prop where
  /-- The vertices are those of the edge list, in any order. -/
  perm : (pairs.map (·.1)).Perm es.vertices.values.toList
  /-- There is a label for each vertex. -/
  size_eq : labels.size = es.size
  /-- The label of a vertex is the community named for it. -/
  label_eq : ∀ p ∈ pairs, ∀ i : Nat, es.vertices.values[i]? = some p.1 → labels[i]? = some p.2

/-! ## The assignment -/

/-- The assignment that the given pairs make. -/
def gathered (es : EdgeList W) (pairs : List (Nat × Nat)) : Assignment :=
  es.vertices.values.map fun v => pairs.lookup v

/-- The assignment with one more pair, if there is nothing wrong with that. -/
def assign? (es : EdgeList W) (table : Assignment) (p : Nat × Nat) : Option Assignment := do
  let id ← es.id? p.1
  if (table.getD id none).isSome then none else some (table.setIfInBounds id (some p.2))

variable {es : EdgeList W} {pairs done : List (Nat × Nat)} {p : Nat × Nat} {v c : Nat}
  {table table' : Assignment} {labels : Array Nat}

theorem blank_eq_gathered : Array.replicate es.size none = es.gathered [] :=
  Array.map_const'.symm

theorem assign_eq_ok_iff (line : Nat) :
    (es.assign table line p.1 p.2 : Except (TextError W) Assignment) = .ok table' ↔
      es.assign? table p = some table' := by
  rw [assign, assign?]
  cases es.id? p.1 with
  | none => simp
  | some id =>
    simp only [Option.bind_eq_bind, Option.bind_some]
    split <;> simp

theorem lookup_eq_none : pairs.lookup v = none ↔ v ∉ pairs.map (·.1) := by
  simp only [List.lookup_eq_none_iff, bne_iff_ne, ne_eq, List.mem_map, not_exists, not_and]
  exact forall₂_congr fun _ _ => not_congr eq_comm

private theorem lookup_of_mem (hnodup : (pairs.map (·.1)).Nodup) (hp : p ∈ pairs) :
    pairs.lookup p.1 = some p.2 := by
  obtain ⟨before, after, rfl⟩ := List.append_of_mem hp
  refine List.lookup_eq_some_iff.2 ⟨before, after, rfl, fun q hq => ?_⟩
  rw [List.map_append, List.map_cons, List.nodup_append] at hnodup
  exact bne_iff_ne.2 (hnodup.2.2 q.1 (List.mem_map_of_mem hq) p.1 (by simp)).symm

private theorem getElem?_gathered (i : Nat) :
    (es.gathered pairs)[i]? = es.vertices.values[i]?.map fun v => pairs.lookup v :=
  Array.getElem?_map ..

section Assign

variable (hs : es.vertices.values.toList.Pairwise (· < ·))
include hs

private theorem set_gathered {i : Nat} (hi : i < es.vertices.values.size)
    (hp : es.vertices.values[i] = p.1) (hnew : p.1 ∉ done.map (·.1)) :
    (es.gathered done).setIfInBounds i (some p.2) = es.gathered (done ++ [p]) := by
  obtain ⟨v, c⟩ := p
  have hsize : (es.gathered done).size = es.vertices.values.size := Array.size_map
  refine Array.ext_getElem? fun j => ?_
  rw [Array.getElem?_setIfInBounds, getElem?_gathered, getElem?_gathered, hsize]
  by_cases hij : i = j
  · subst hij
    simp [hi, hp, List.lookup_append, lookup_eq_none.2 hnew, List.lookup_cons]
  rw [if_neg hij]
  cases hvalue : es.vertices.values[j]? with
  | none => rfl
  | some v' =>
    -- Another position has another vertex, which the new pair does not name.
    obtain ⟨hj, rfl⟩ := Array.getElem?_eq_some_iff.1 hvalue
    have hne : es.vertices.values[j] ≠ v := fun h => hij (by
      rw [← Ranking.rank_values hs hi, ← Ranking.rank_values hs hj, hp, h])
    simp [List.lookup_append, List.lookup_cons, beq_false_of_ne hne]

theorem assign?_gathered : es.assign? (es.gathered done) p = some table ↔
    (p.1 ∈ es.vertices.values ∧ p.1 ∉ done.map (·.1)) ∧ table = es.gathered (done ++ [p]) := by
  rw [assign?]
  by_cases hp : p.1 ∈ es.vertices.values
  · obtain ⟨i, hi, hvalue⟩ := Array.mem_iff_getElem.1 hp
    have hid : es.id? p.1 = some i :=
      (Ranking.find?_eq_some_iff hs).2 (Array.getElem?_eq_some_iff.2 ⟨hi, hvalue⟩)
    have hentry : (es.gathered done).getD i none = done.lookup p.1 := by
      simp [gathered, hi, hvalue]
    simp only [hid, Option.bind_eq_bind, Option.bind_some, hentry]
    by_cases hnew : p.1 ∈ done.map (·.1)
    · have hsome : (done.lookup p.1).isSome := by
        rw [Option.isSome_iff_ne_none, ne_eq, lookup_eq_none, not_not]
        exact hnew
      simp [hsome, hnew]
    · simp [lookup_eq_none.2 hnew, hp, hnew, set_gathered hs hi hvalue hnew, eq_comm]
  · have hid : es.id? p.1 = none := by
      cases hfind : es.id? p.1 with
      | none => rfl
      | some i =>
        exact absurd (Array.mem_of_getElem? ((Ranking.find?_eq_some_iff hs).1 hfind)) hp
    simp [hid, hp]

/-- The pairs of a list are taken one after the other as long as each names a new vertex. -/
theorem foldlM_assign? : pairs.foldlM es.assign? (es.gathered done) = some table ↔
    ((∀ p ∈ pairs, p.1 ∈ es.vertices.values ∧ p.1 ∉ done.map (·.1)) ∧
      (pairs.map (·.1)).Nodup) ∧ table = es.gathered (done ++ pairs) := by
  induction pairs generalizing done with
  | nil => simp [eq_comm]
  | cons p pairs ih =>
    rw [List.foldlM_cons, Option.bind_eq_bind, Option.bind_eq_some_iff]
    simp only [assign?_gathered hs]
    constructor
    · rintro ⟨_, ⟨hp, rfl⟩, h⟩
      obtain ⟨⟨hall, hnodup⟩, rfl⟩ := ih.1 h
      simp only [List.map_append, List.map_cons, List.map_nil, List.mem_append, List.mem_singleton,
        not_or] at hall
      refine ⟨⟨List.forall_mem_cons.2 ⟨hp, fun q hq => ⟨(hall q hq).1, (hall q hq).2.1⟩⟩, ?_⟩,
        by rw [List.append_assoc]; rfl⟩
      rw [List.map_cons, List.nodup_cons, List.mem_map, not_exists]
      exact ⟨fun q hq => (hall q hq.1).2.2 hq.2, hnodup⟩
    · rintro ⟨⟨hall, hnodup⟩, rfl⟩
      rw [List.forall_mem_cons] at hall
      rw [List.map_cons, List.nodup_cons] at hnodup
      refine ⟨_, ⟨hall.1, rfl⟩, ih.2 ⟨⟨fun q hq => ⟨(hall.2 q hq).1, ?_⟩, hnodup.2⟩,
        by rw [List.append_assoc]; rfl⟩⟩
      rw [List.map_append, List.mem_append, not_or]
      refine ⟨(hall.2 q hq).2, fun h => hnodup.1 ?_⟩
      have hqp : q.1 = p.1 := by simpa using h
      exact hqp ▸ List.mem_map_of_mem hq

end Assign

/-- The community that the first of the pairs with a vertex names for it. -/
def communityOf (pairs : List (Nat × Nat)) (v : Nat) : Except (TextError W) Nat :=
  match pairs.lookup v with
  | some c => .ok c
  | none => .error (.unassigned v)

theorem communityOf_eq_ok_iff :
    (communityOf pairs v : Except (TextError W) Nat) = .ok c ↔ pairs.lookup v = some c := by
  rw [communityOf]
  cases pairs.lookup v <;> simp

theorem communityOf_eq_error_iff {e : TextError W} :
    communityOf pairs v = .error e ↔ v ∉ pairs.map (·.1) ∧ e = .unassigned v := by
  rw [← lookup_eq_none, communityOf]
  cases pairs.lookup v <;> simp [eq_comm]

theorem completed_gathered_eq :
    (es.completed (es.gathered pairs) : Except (TextError W) (Array Nat)) =
      (es.vertices.values.toList.mapM (communityOf pairs)).map List.toArray := by
  have hzip : (es.vertices.values.zip (es.gathered pairs)).toList =
      es.vertices.values.toList.map fun v => (v, pairs.lookup v) := by
    rw [Array.toList_zip, gathered, Array.toList_map, List.map_prod_left_eq_zip]
  rw [completed, Array.mapM_eq_mapM_toList, hzip, List.mapM_map]
  rfl

theorem completed_gathered :
    (es.completed (es.gathered pairs) : Except (TextError W) (Array Nat)) = .ok labels ↔
      es.vertices.values.toList.map (fun v => pairs.lookup v) = labels.toList.map some := by
  have htoArray : ∀ x : Except (TextError W) (List Nat),
      x.map List.toArray = .ok labels ↔ x = .ok labels.toList := fun x => by
    cases x with
    | error e => exact iff_of_false (fun h => by cases h) (fun h => by cases h)
    | ok xs => exact ⟨fun h => by cases h; rfl, fun h => by cases h; rfl⟩
  simp only [completed_gathered_eq, htoArray, mapM_eq_ok_iff, communityOf_eq_ok_iff,
    ← List.forall₂_eq_eq_eq, List.forall₂_map_left_iff, List.forall₂_map_right_iff]

theorem names_iff (hs : es.vertices.values.toList.Pairwise (· < ·)) :
    ((∀ p ∈ pairs, p.1 ∈ es.vertices.values) ∧ (pairs.map (·.1)).Nodup) ∧
        es.vertices.values.toList.map (fun v => pairs.lookup v) = labels.toList.map some ↔
      es.Names pairs labels := by
  have hvalues : es.vertices.values.toList.Nodup := hs.imp fun h => Nat.ne_of_lt h
  constructor
  · rintro ⟨⟨hmem, hnodup⟩, hlabels⟩
    refine ⟨(List.perm_ext_iff_of_nodup hnodup hvalues).2 fun v => ⟨fun hv => ?_, fun hv => ?_⟩,
      ?_, fun p hp i hi => ?_⟩
    · obtain ⟨p, hp, rfl⟩ := List.mem_map.1 hv
      exact Array.mem_toList_iff.2 (hmem p hp)
    · obtain ⟨c, -, hc⟩ := List.mem_map.1 (hlabels ▸ List.mem_map_of_mem hv)
      by_contra hnot
      rw [lookup_eq_none.2 hnot] at hc
      cases hc
    · simpa [size, Ranking.size] using (congrArg List.length hlabels).symm
    · have hentry := congrArg (·[i]?) hlabels
      simp only [List.getElem?_map, Array.getElem?_toList, hi, Option.map_some,
        lookup_of_mem hnodup hp] at hentry
      cases hlabel : labels[i]? with
      | none => rw [hlabel] at hentry; cases hentry
      | some c => rw [hlabel] at hentry; cases hentry; rfl
  · rintro ⟨hperm, hsize, hlabel⟩
    have hnodup := hperm.symm.nodup hvalues
    refine ⟨⟨fun p hp => ?_, hnodup⟩, ?_⟩
    · exact Array.mem_toList_iff.1 (hperm.mem_iff.1 (List.mem_map_of_mem hp))
    · apply List.ext_getElem
      · simpa [size, Ranking.size] using hsize.symm
      · intro i hi hi'
        have hi : i < es.vertices.values.size := by simpa using hi
        have hi' : i < labels.size := by simpa using hi'
        obtain ⟨p, hp, hvalue⟩ := List.mem_map.1
          (hperm.symm.mem_iff.1 (Array.mem_toList_iff.2 (Array.getElem_mem hi)))
        have := hlabel p hp i (Array.getElem?_eq_some_iff.2 ⟨hi, hvalue.symm⟩)
        rw [Array.getElem?_eq_getElem hi', Option.some.injEq] at this
        rw [List.getElem_map, List.getElem_map, Array.getElem_toList, Array.getElem_toList, ← hvalue,
          lookup_of_mem hnodup hp, this]

/-! ## Texts -/

theorem named?_relabels {f : Nat → Nat} {fs fs' : List (List Char)} (h : Relabels f 1 fs fs')
    (hp : named? fs = some p) : named? fs' = some (f p.1, p.2) := by
  obtain ⟨hdrop, htake⟩ := h
  match fs with
  | [] => cases hp
  | [_] => cases hp
  | vertex :: community :: rest =>
    obtain ⟨hv, hc⟩ := named?_eq_some_iff.1 hp
    match fs' with
    | [] => cases htake
    | vertex' :: rest' =>
      obtain _ | ⟨hvertex, -⟩ := htake
      obtain rfl : rest' = community :: rest := hdrop
      exact named?_eq_some_iff.2 ⟨hvertex _ hv, hc⟩

theorem assign_record_eq_ok_iff (table : Assignment) (r : Record) (table' : Assignment) :
    (do let vertex ← r.number 0
        let community ← r.number 1
        es.assign table r.line vertex community : Except (TextError W) Assignment) = .ok table' ↔
      ((named? r.fields).bind (es.assign? table)) = some table' := by
  simp only [bind_eq_ok_iff, Record.number_eq_ok_iff]
  match hfields : r.fields with
  | [] => simp [named?]
  | [_] => simp [named?]
  | vertex :: community :: rest =>
    cases hv : number? vertex <;> cases hc : number? community <;>
      simp [named?, hv, hc, ← assign_eq_ok_iff r.line]

/-- A list of records stands for the pairs that they name one after the other. -/
private theorem foldlM_named? {rs : List (List (List Char))} :
    rs.foldlM (fun table fs => (named? fs).bind (es.assign? table)) table = some table' ↔
      ∃ pairs, List.Forall₂ (fun fs p => named? fs = some p) rs pairs ∧
        pairs.foldlM es.assign? table = some table' := by
  induction rs generalizing table with
  | nil => simp
  | cons fs rs ih =>
    rw [List.foldlM_cons, Option.bind_eq_bind, Option.bind_eq_some_iff]
    simp only [ih, Option.bind_eq_some_iff]
    constructor
    · rintro ⟨_, ⟨p, hp, hassign⟩, pairs, hpairs, hfold⟩
      exact ⟨p :: pairs, .cons hp hpairs, by simp [hassign, hfold]⟩
    · rintro ⟨_, _ | ⟨hp, hpairs⟩, hfold⟩
      rw [List.foldlM_cons, Option.bind_eq_bind, Option.bind_eq_some_iff] at hfold
      obtain ⟨next, hassign, hfold⟩ := hfold
      exact ⟨next, ⟨_, hp, hassign⟩, _, hpairs, hfold⟩

theorem readSeed_eq_ok_iff {s : Source} (hs : es.vertices.values.toList.Pairwise (· < ·)) :
    (es.readSeed s : Except (TextError W) (Array Nat)) = .ok labels ↔
      ∃ rs pairs, s.Holds rs ∧ List.Forall₂ (fun fs p => named? fs = some p) rs pairs ∧
        es.Names pairs labels := by
  rw [readSeed, bind_eq_ok_iff, blank_eq_gathered]
  simp only [Source.foldRecords_eq_ok_iff
    (g := fun table fs => (named? fs).bind (es.assign? table)) assign_record_eq_ok_iff,
    foldlM_named?, foldlM_assign? hs, ← names_iff hs]
  constructor
  · rintro ⟨_, ⟨rs, hrs, pairs, hpairs, ⟨hmem, hnodup⟩, rfl⟩, hlabels⟩
    exact ⟨rs, pairs, hrs, hpairs, ⟨fun p hp => (hmem p hp).1, hnodup⟩,
      completed_gathered.1 hlabels⟩
  · rintro ⟨rs, pairs, hrs, hpairs, ⟨hmem, hnodup⟩, hlabels⟩
    exact ⟨_, ⟨rs, hrs, pairs, hpairs, ⟨fun p hp => ⟨hmem p hp, by simp⟩, hnodup⟩, rfl⟩,
      completed_gathered.2 hlabels⟩

/-- The seed says the same of vertices that are mapped in order. -/
theorem Names.map {es' : EdgeList W} {pairs' : List (Nat × Nat)} {f : Nat → Nat}
    (h : es.Names pairs labels)
    (hf : es'.vertices.values.toList = es.vertices.values.toList.map f)
    (hinj : Set.InjOn f {x | x ∈ es.vertices.values})
    (hpairs : (pairs.map fun p => (f p.1, p.2)).Perm pairs') : es'.Names pairs' labels where
  perm := by
    have hmap : (pairs.map fun p => (f p.1, p.2)).map (·.1) = (pairs.map (·.1)).map f := by
      simp only [List.map_map, Function.comp_def]
    exact (hpairs.map _).symm.trans (hf ▸ hmap ▸ h.perm.map f)
  size_eq := h.size_eq.trans (size_of_values hf).symm
  label_eq := by
    intro p' hp' i hi
    obtain ⟨p, hp, rfl⟩ := List.mem_map.1 (hpairs.mem_iff.2 hp')
    have hi' : (es.vertices.values[i]?).map f = some (f p.1) := by
      rw [← hi, ← Array.getElem?_toList, ← Array.getElem?_toList, hf, List.getElem?_map]
    obtain ⟨v, hv, hfv⟩ := Option.map_eq_some_iff.1 hi'
    have hmem : p.1 ∈ es.vertices.values :=
      Array.mem_toList_iff.1 (h.perm.mem_iff.1 (List.mem_map_of_mem hp))
    have hvp : v = p.1 := hinj (Array.mem_of_getElem? hv) hmem hfv
    exact h.label_eq p hp i (hvp ▸ hv)

/-- Vertices mapped in order have the same communities. -/
theorem readSeed_rewritten {es' : EdgeList W} {s s' : Source} {f : Nat → Nat}
    {R : List (List Char) → List (List Char) → Prop}
    (hs : es.vertices.values.toList.Pairwise (· < ·))
    (hs' : es'.vertices.values.toList.Pairwise (· < ·))
    (hf : es'.vertices.values.toList = es.vertices.values.toList.map f)
    (hinj : Set.InjOn f {x | x ∈ es.vertices.values})
    (hR : ∀ fs fs' p, R fs fs' → named? fs = some p → named? fs' = some (f p.1, p.2))
    (hseed : s.Rewritten R s') (h : (es.readSeed s : Except (TextError W) (Array Nat)) = .ok labels) :
    (es'.readSeed s' : Except (TextError W) (Array Nat)) = .ok labels := by
  obtain ⟨rs, pairs, hrs, hpairs, hnames⟩ := (readSeed_eq_ok_iff hs).1 h
  obtain ⟨rs', pairs', hrs', hpairs', hperm⟩ := hseed.exists_forall₂ hrs hpairs
    (fun p => (f p.1, p.2)) id fun fs fs' p hr hp => ⟨_, hR fs fs' p hr hp, rfl⟩
  rw [List.map_id] at hperm
  exact (readSeed_eq_ok_iff hs').2 ⟨rs', pairs', hrs', hpairs', hnames.map hf hinj hperm⟩

end EdgeList

end Communities
