import Communities.Proofs.Hierarchy
import Communities.Proofs.Solver.Ascent

/-!
# Labels carried through the levels

The labels of each level are those of the communities that its search has found, so where the levels
lead a node can be said step by step: to its community, which is a node of the network that has been
drawn together, to the community of that, and so on. A run that starts from a seed carries the first
level back to the vertices. This holds in any arithmetic.

* `Search.Found.level_fits`: the labels of a level, `Search.Found.drawn`: what it draws together.
* `Ascent.exists_follow`: where the levels of a climb lead the nodes, with what carries over from
  level to level.
* `pullBack_cases`: all that is carried back is the labels of the first level.
* `Solver.Start.mem_labels`: the nodes that a run starts from; `Solver.Start.pullBack` and
  `Solver.Start.exists_pullBack`: the first level, carried back to the vertices;
  `Solver.Start.partitionAt_eq`: the partition of the vertices at a level.
-/

namespace Communities

/-! ## Through the levels -/

theorem Partition.Covers.compose {p : Partition} {n : Nat} (h : p.Covers n) {fine : Array Nat}
    (hfine : ∀ x ∈ fine, x < n) : Hierarchy.compose fine p.labels = .ok (fine.map p.labelAt) := by
  rw [Hierarchy.compose_eq_ok fun x hx => h.size_eq.symm ▸ hfine x hx]
  rfl

section Levels

variable {W : Type} [Weight W] {settings : Settings W} {number : Nat} {current reduced : Network W}
  {s : Search W} {level : Level W} {p : Partition}

theorem Search.Found.level_fits (hnet : current.Canonical)
    (hfound : s.Found settings number current) (hscored : s.level current = .ok (level, p)) :
    level.labels = p.labels ∧ p.Fits current.size := by
  obtain ⟨rfl, q, -, rfl⟩ := level_eq_ok_iff.1 hscored
  exact ⟨rfl, Partition.fits_ofLabels (hfound.indexes hnet).size_eq⟩

theorem Ascent.size_labels {first : Level W} {rest : List (Level W)} {coarse : Option (Network W)}
    (hnet : current.Canonical) (h : Ascent settings number current (first :: rest) coarse) :
    first.labels.size = current.size := by
  obtain ⟨p, hlabels, hfits⟩ : ∃ p : Partition, first.labels = p.labels ∧ p.Fits current.size := by
    cases h with
    | still found _ scored => exact ⟨_, found.level_fits hnet scored⟩
    | top found _ scored => exact ⟨_, found.level_fits hnet scored⟩
    | step found _ scored => exact ⟨_, found.level_fits hnet scored⟩
  rw [hlabels, hfits.size_eq]

/-- What a level draws together has its form, and every node goes somewhere. -/
theorem Search.Found.drawn (hnet : current.Canonical) (hfound : s.Found settings number current)
    (hscored : s.level current = .ok (level, p)) (hdrawn : current.condense p = .ok reduced) :
    reduced.Canonical ∧ ∀ v < current.size, p.labelAt v < reduced.size := by
  obtain ⟨-, hfits⟩ := hfound.level_fits hnet hscored
  obtain ⟨reduced', hdrawn', hcanonical, hsize, -⟩ := hnet.condense_eq_ok_of_fits hfits
  cases hdrawn.symm.trans hdrawn'
  exact ⟨hcanonical, fun v hv => hsize.symm ▸ hfits.labelAt_lt v hv⟩

/-- One level leads the nodes to their communities. -/
theorem Search.Found.follow_level (hnet : current.Canonical)
    (hfound : s.Found settings number current) (hscored : s.level current = .ok (level, p))
    {fine : Array Nat} (hfine : ∀ x ∈ fine, x < current.size) :
    Hierarchy.follow [level] fine = .ok (fine.map p.labelAt) := by
  obtain ⟨hlabels, hfits⟩ := hfound.level_fits hnet hscored
  rw [Hierarchy.follow_cons, hlabels, hfits.compose hfine]
  rfl

/-- Levels above it lead them on, through the network that it has drawn together. -/
theorem Search.Found.follow_cons (hnet : current.Canonical)
    (hfound : s.Found settings number current) (hscored : s.level current = .ok (level, p))
    (hdrawn : current.condense p = .ok reduced) {levels : List (Level W)} {g : Nat → Nat}
    (hrest : ∀ fine : Array Nat, (∀ x ∈ fine, x < reduced.size) →
      Hierarchy.follow levels fine = .ok (fine.map g))
    {fine : Array Nat} (hfine : ∀ x ∈ fine, x < current.size) :
    Hierarchy.follow (level :: levels) fine = .ok (fine.map fun v => g (p.labelAt v)) := by
  obtain ⟨hlabels, hfits⟩ := hfound.level_fits hnet hscored
  obtain ⟨-, hlt⟩ := hfound.drawn hnet hscored hdrawn
  have hbelow : ∀ x ∈ fine.map p.labelAt, x < reduced.size := by
    intro x hx
    obtain ⟨y, hy, rfl⟩ := Array.mem_map.1 hx
    exact hlt y (hfine y hy)
  rw [Hierarchy.follow_cons, hlabels, hfits.compose hfine, ok_bind, hrest _ hbelow, Array.map_map]
  rfl

/-- Where the levels up to number `k` lead the nodes. What is said of it has to hold of the
communities of one level, and to carry over from a network to the one that it was drawn from. -/
theorem Ascent.exists_follow {Q : Network W → Level W → (Nat → Nat) → Prop}
    (one : ∀ {number : Nat} {current : Network W} {s : Search W} {level : Level W} {p : Partition},
      current.Canonical → s.Found settings number current → s.level current = .ok (level, p) →
        Q current level p.labelAt)
    (drawn : ∀ {number : Nat} {current reduced : Network W} {s : Search W} {first level : Level W}
      {p : Partition} {g : Nat → Nat}, current.Canonical → s.Found settings number current →
        s.level current = .ok (first, p) → current.condense p = .ok reduced →
          (∀ v < current.size, p.labelAt v < reduced.size) → Q reduced level g →
            Q current level fun v => g (p.labelAt v))
    {levels : List (Level W)} {coarse : Option (Network W)} (hnet : current.Canonical)
    (h : Ascent settings number current levels coarse) {k : Nat} (hk : levels[k]? = some level) :
    ∃ g, Q current level g ∧ ∀ fine : Array Nat, (∀ x ∈ fine, x < current.size) →
      Hierarchy.follow (levels.take (k + 1)) fine = .ok (fine.map g) := by
  -- Above the first level the claim is that of the network which this has drawn together.
  induction h generalizing k with
  | rest => cases hk
  | still found _ scored =>
    cases k with
    | zero => cases hk; exact ⟨_, one hnet found scored, fun _ => found.follow_level hnet scored⟩
    | succ k => cases hk
  | top found _ scored =>
    cases k with
    | zero => cases hk; exact ⟨_, one hnet found scored, fun _ => found.follow_level hnet scored⟩
    | succ k => cases hk
  | step found _ scored hdrawn _ _ _ ih =>
    cases k with
    | zero => cases hk; exact ⟨_, one hnet found scored, fun _ => found.follow_level hnet scored⟩
    | succ k =>
      obtain ⟨hcanonical, hlt⟩ := found.drawn hnet scored hdrawn
      obtain ⟨g, hg, hfollow⟩ := ih hcanonical hk
      exact ⟨_, drawn hnet found scored hdrawn hlt hg,
        fun _ => found.follow_cons hnet scored hdrawn hfollow⟩

theorem Ascent.ne_nil {levels : List (Level W)} {coarse : Option (Network W)}
    (h : Ascent settings 0 current levels coarse) : levels ≠ [] := by
  intro hnil
  subst hnil
  cases h with
  | rest _ _ later => exact absurd later (Nat.lt_irrefl 0)

end Levels

section PullBack

variable {W : Type} {seed : Option Partition} {levels pulled : List (Level W)}

/-- Nothing is carried back but the labels of the first level. -/
theorem pullBack_cases (h : pullBack seed levels = .ok pulled) : pulled = levels ∨
    ∃ first rest labels, levels = first :: rest ∧
      pulled = { first with labels := labels } :: rest := by
  cases seed with
  | none => cases h; exact .inl rfl
  | some p =>
    cases levels with
    | nil => cases h; exact .inl rfl
    | cons first rest =>
      obtain ⟨labels, -, h⟩ := bind_eq_ok_iff.1 h
      cases h
      exact .inr ⟨first, rest, labels, rfl, rfl⟩

theorem length_pullBack (h : pullBack seed levels = .ok pulled) :
    pulled.length = levels.length := by
  obtain rfl | ⟨first, rest, labels, rfl, rfl⟩ := pullBack_cases h <;> rfl

theorem getElem?_pullBack (h : pullBack seed levels = .ok pulled) (k : Nat) :
    pulled[k + 1]? = levels[k + 1]? := by
  obtain rfl | ⟨first, rest, labels, rfl, rfl⟩ := pullBack_cases h <;> rfl

end PullBack

namespace Solver

/-! ## From the vertices -/

variable {W : Type} [Weight W] {net base : Network W} {seed : Option (Array Nat)}
  {labels : Array Nat}

omit [Weight W] in
theorem checkSeed_eq_ok_iff {n : Nat} :
    checkSeed (W := W) n seed = .ok () ↔ ∀ labels, seed = some labels → labels.size = n := by
  cases seed with
  | none => simp [checkSeed]
  | some labels => by_cases h : labels.size = n <;> simp [checkSeed, h]

theorem exists_start_of_checkSeed (hnet : net.Canonical)
    (hseed : checkSeed (W := W) net.size seed = .ok ()) :
    ∃ base labels, Start net seed base labels := by
  cases seed with
  | none => exact ⟨_, _, .vertices⟩
  | some given =>
    obtain ⟨base, hbase, -⟩ := hnet.condense_eq_ok_of_fits
      (Partition.fits_ofLabels (checkSeed_eq_ok_iff.1 hseed given rfl))
    exact ⟨base, _, .seeded hbase⟩

/-- Each node that a run starts from is the place of some vertex. -/
theorem Start.mem_labels (hnet : net.Canonical)
    (hseed : checkSeed (W := W) net.size seed = .ok ()) (h : Start net seed base labels) :
    base.Canonical ∧ labels.size = net.size ∧ ∀ x, x ∈ labels ↔ x < base.size := by
  cases h with
  | vertices => exact ⟨hnet, Array.size_range, fun x => Array.mem_range⟩
  | @seeded given base drawn =>
    have hfits := Partition.fits_ofLabels (checkSeed_eq_ok_iff.1 hseed given rfl)
    obtain ⟨base', h', hcanonical, hsize, -⟩ := hnet.condense_eq_ok_of_fits hfits
    rw [h'] at drawn
    cases drawn
    exact ⟨hcanonical, hfits.size_eq, fun x => hsize.symm ▸ Partition.mem_labels_ofLabels⟩

/-- Only the labels of the first level are carried back. -/
theorem Start.pullBack {first : Level W} {rest pulled : List (Level W)}
    (h : Start net seed base labels) (hsize : first.labels.size = base.size)
    (hback : pullBack (seed.map Partition.ofLabels) (first :: rest) = .ok pulled) :
    ∃ back, Hierarchy.compose labels first.labels = .ok back ∧
      pulled = { first with labels := back } :: rest := by
  cases h with
  | vertices =>
    cases hback
    exact ⟨first.labels, hsize ▸ Hierarchy.compose_range _, rfl⟩
  | seeded =>
    obtain ⟨back, hcompose, hback⟩ := bind_eq_ok_iff.1 hback
    cases hback
    exact ⟨back, hcompose, rfl⟩

/-- So the partition at a level is where the levels up to it lead the labels of the start. -/
theorem Start.partitionAt_eq {settings : Settings W} {levels pulled : List (Level W)}
    {coarse : Option (Network W)} (hnet : net.Canonical)
    (hseed : checkSeed (W := W) net.size seed = .ok ()) (h : Start net seed base labels)
    (ascent : Ascent settings 0 base levels coarse)
    (hback : Communities.pullBack (seed.map Partition.ofLabels) levels = .ok pulled) {k : Nat}
    (hk : k < pulled.length) {found : Array Nat}
    (hfollow : Hierarchy.follow (levels.take (k + 1)) labels = .ok found) :
    Hierarchy.partitionAt ⟨pulled, coarse⟩ k = .ok (some found) := by
  obtain ⟨hbase, -, -⟩ := h.mem_labels hnet hseed
  obtain ⟨first, rest, rfl⟩ := List.exists_cons_of_ne_nil ascent.ne_nil
  obtain ⟨back, hcompose, rfl⟩ := h.pullBack (ascent.size_labels hbase) hback
  rw [List.take_succ_cons, Hierarchy.follow_cons, hcompose, ok_bind] at hfollow
  rw [Hierarchy.partitionAt_eq hk, hfollow]
  rfl

/-- The first level can be carried back. -/
theorem Start.exists_pullBack (hnet : net.Canonical)
    (hseed : checkSeed (W := W) net.size seed = .ok ()) (h : Start net seed base labels)
    {settings : Settings W} {levels : List (Level W)} {coarse : Option (Network W)}
    (ascent : Ascent settings 0 base levels coarse) :
    ∃ first rest, Communities.pullBack (seed.map Partition.ofLabels) levels =
      .ok (first :: rest) := by
  obtain ⟨hbase, -, hmem⟩ := h.mem_labels hnet hseed
  obtain ⟨first, rest, rfl⟩ := List.exists_cons_of_ne_nil ascent.ne_nil
  cases h with
  | vertices => exact ⟨first, rest, rfl⟩
  | seeded =>
    obtain ⟨back, hcompose, -⟩ := Hierarchy.exists_compose fun x =>
      (ascent.size_labels hbase).symm ▸ hmem x
    refine ⟨{ first with labels := back }, rest, ?_⟩
    rw [Option.map_some, Communities.pullBack, hcompose]
    rfl

end Solver

end Communities
