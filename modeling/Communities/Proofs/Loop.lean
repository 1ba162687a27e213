import Communities.Fault
import Communities.Weight
import Mathlib.Algebra.BigOperators.Group.List.Basic
import Mathlib.Data.List.Forall2
import Mathlib.Logic.Function.Basic

/-!
# Loops that can fail

A loop of the library runs in `Except`. A proof about one replaces it by the loop without faults
that it agrees with, under an invariant that keeps every index in range.

* `foldlM_eq_ok`: a loop whose steps all succeed is the fold of what the steps give.
* `exists_foldlM`: a loop keeps an invariant that speaks about the part of the list that is behind
  it.
* `mapM_eq_ok` and `arrayMapM_eq_ok`: the same for what is mapped entry by entry;
  `mapM_eq_ok_iff`: what comes of it, entry by entry.
* `exists_of_foldlM`, `exists_of_mapM` and `exists_of_filterMapM`: no step of a loop fails if the
  loop does not;
  `forall₂_of_filterMapM`: each entry has its result if none is left out.
* `map_bind_eq`, `bind_map_eq`, `mapError_bind_eq` and `bind_congr_of_map`: what follows a step sees
  of it only its result.
* `foldlM_congr` and `mapM_congr`: loops whose steps agree on the list agree.
* `exists_foldlM_of_forall`, `exists_mapM` and `exists_filterMapM`: a loop gives something if each
  of its steps does.
* `bind_hom`, `foldlM_hom`, `foldrM_hom` and `mapM_hom`: what commutes with each step commutes with
  the whole; `fetch_map` and `adjust_map`: so does what is done to every entry of a table.
* `foldlM_adjust`: the loop that updates one entry of a table in each step, with
  `getElem?_foldl_modify` for what an entry has gathered in the end; `foldrM_adjust` and
  `getElem?_foldr_modify` for a loop from the end of a list.
* `toList_eq_map_getD`: all entries of a table; `modify_const` and `getD_setIfInBounds`: one entry
  replaced.
-/

namespace Communities

variable {ε α β : Type}

@[simp] theorem ok_bind (a : α) (f : α → Except ε β) : (Except.ok a >>= f) = f a := rfl

@[simp] theorem error_bind (e : ε) (f : α → Except ε β) : (Except.error e >>= f) = .error e := rfl

@[simp] theorem pure_eq_ok (a : α) : (pure a : Except ε α) = .ok a := rfl

theorem bind_eq_ok_iff {x : Except ε α} {f : α → Except ε β} {b : β} :
    (x >>= f) = .ok b ↔ ∃ a, x = .ok a ∧ f a = .ok b := by
  cases x <;> simp

theorem bind_eq_error_iff {x : Except ε α} {f : α → Except ε β} {e : ε} :
    (x >>= f) = .error e ↔ x = .error e ∨ ∃ a, x = .ok a ∧ f a = .error e := by
  cases x <;> simp

theorem map_eq_ok_iff {x : Except ε α} {f : α → β} {b : β} :
    x.map f = .ok b ↔ ∃ a, x = .ok a ∧ f a = b := by
  cases x <;> simp [Except.map]

theorem map_eq_error_iff {x : Except ε α} {f : α → β} {e : ε} :
    x.map f = .error e ↔ x = .error e := by
  cases x <;> simp [Except.map]

theorem map_bind_eq {γ : Type} (x : Except ε α) (f : α → Except ε β) (g : β → γ) :
    (x >>= f).map g = x >>= fun a => (f a).map g := by
  cases x <;> rfl

theorem bind_map_eq {γ : Type} (x : Except ε α) (f : α → γ) (g : γ → Except ε β) :
    x.map f >>= g = x >>= fun a => g (f a) := by
  cases x <;> rfl

theorem mapError_bind_eq {ε' : Type} (x : Except ε α) (f : α → Except ε β) (g : ε → ε') :
    (x >>= f).mapError g = x.mapError g >>= fun a => (f a).mapError g := by
  cases x <;> rfl

/-- A computation that asks only for what its first step tells goes on the same after every step
that tells the same. -/
theorem bind_congr_of_map {α' γ : Type} {x : Except ε α} {x' : Except ε α'} {p : α → γ}
    {p' : α' → γ} {f : α → Except ε β} {f' : α' → Except ε β} (hx : x.map p = x'.map p')
    (hf : ∀ a a', p a = p' a' → f a = f' a') : x >>= f = x' >>= f' := by
  cases x with
  | error e =>
    obtain rfl : x' = .error e := map_eq_error_iff.1 hx.symm
    rfl
  | ok a =>
    obtain ⟨a', rfl, ha⟩ := map_eq_ok_iff.1 hx.symm
    exact hf a a' ha.symm

@[simp] theorem liftM_ok (a : α) :
    (liftM (Except.ok a : Except Fault α) : Except Interrupt α) = .ok a := rfl

theorem liftM_eq_ok_iff {x : Except Fault α} {a : α} :
    (liftM x : Except Interrupt α) = .ok a ↔ x = .ok a := by
  cases x with
  | error e => constructor <;> intro h <;> cases h
  | ok b => rw [liftM_ok]; constructor <;> intro h <;> cases h <;> rfl

/-! ## Invariants -/

theorem foldlM_eq_ok {f : β → α → Except ε β} {g : β → α → β} {l : List α} {b : β}
    (inv : β → Prop) (h0 : inv b)
    (step : ∀ b, inv b → ∀ x ∈ l, f b x = .ok (g b x) ∧ inv (g b x)) :
    l.foldlM f b = .ok (l.foldl g b) ∧ inv (l.foldl g b) := by
  induction l generalizing b with
  | nil => exact ⟨rfl, h0⟩
  | cons x l ih =>
    obtain ⟨hf, hinv⟩ := step b h0 x (by simp)
    rw [List.foldlM_cons, hf, ok_bind, List.foldl_cons]
    exact ih hinv fun b hb y hy => step b hb y (by simp [hy])

theorem exists_foldlM {f : β → α → Except ε β} {xs : List α} {b : β} (inv : List α → β → Prop)
    (h0 : inv [] b)
    (step : ∀ done x rest, xs = done ++ x :: rest → ∀ b, inv done b →
      ∃ b', f b x = .ok b' ∧ inv (done ++ [x]) b') :
    ∃ b', xs.foldlM f b = .ok b' ∧ inv xs b' := by
  suffices h : ∀ rest done b, xs = done ++ rest → inv done b →
      ∃ b', rest.foldlM f b = .ok b' ∧ inv xs b' from h xs [] b rfl h0
  intro rest
  induction rest with
  | nil => intro done b hxs hb; exact ⟨b, rfl, by simpa [hxs] using hb⟩
  | cons x rest ih =>
    intro done b hxs hb
    obtain ⟨b', hf, hinv⟩ := step done x rest hxs b hb
    rw [List.foldlM_cons, hf, ok_bind]
    exact ih (done ++ [x]) b' (by simp [hxs]) hinv

/-- A loop of which no step fails does not fail. -/
theorem exists_foldlM_of_forall {f : β → α → Except ε β} {xs : List α}
    (step : ∀ b, ∀ x ∈ xs, ∃ b', f b x = .ok b') (b : β) : ∃ b', xs.foldlM f b = .ok b' := by
  induction xs generalizing b with
  | nil => exact ⟨b, rfl⟩
  | cons x xs ih =>
    obtain ⟨b', h⟩ := step b x (by simp)
    rw [List.foldlM_cons, h, ok_bind]
    exact ih (fun b y hy => step b y (by simp [hy])) b'

theorem foldlM_congr {f g : β → α → Except ε β} {xs : List α} (h : ∀ x ∈ xs, ∀ b, f b x = g b x)
    (b : β) : xs.foldlM f b = xs.foldlM g b := by
  induction xs generalizing b with
  | nil => rfl
  | cons x xs ih =>
    rw [List.foldlM_cons, List.foldlM_cons, h x (by simp)]
    exact congrArg _ (funext (ih fun y hy => h y (by simp [hy])))

theorem mapM_congr {f g : α → Except ε β} {xs : List α} (h : ∀ x ∈ xs, f x = g x) :
    xs.mapM f = xs.mapM g := by
  induction xs with
  | nil => rfl
  | cons x xs ih =>
    rw [List.mapM_cons, List.mapM_cons, h x (by simp), ih fun y hy => h y (by simp [hy])]

/-- What every successful step keeps, a successful loop keeps. -/
theorem foldlM_preserves {f : β → α → Except ε β} {xs : List α} {b b' : β} (inv : β → Prop)
    (step : ∀ b x b', inv b → f b x = .ok b' → inv b') (h : xs.foldlM f b = .ok b') (h0 : inv b) :
    inv b' := by
  induction xs generalizing b with
  | nil => cases h; exact h0
  | cons x xs ih =>
    rw [List.foldlM_cons] at h
    obtain ⟨b'', hf, h⟩ := bind_eq_ok_iff.1 h
    exact ih h (step _ _ _ h0 hf)

/-- No step of a successful loop fails. -/
theorem exists_of_foldlM {f : β → α → Except ε β} {xs : List α} {b b' : β}
    (h : xs.foldlM f b = .ok b') : ∀ x ∈ xs, ∃ a a', f a x = .ok a' := by
  induction xs generalizing b with
  | nil => simp
  | cons x xs ih =>
    rw [List.foldlM_cons] at h
    obtain ⟨a, hf, h⟩ := bind_eq_ok_iff.1 h
    exact List.forall_mem_cons.2 ⟨⟨b, a, hf⟩, ih h⟩

theorem exists_of_filterMapM {f : α → Except ε (Option β)} {xs : List α} {ys : List β}
    (h : xs.filterMapM f = .ok ys) : ∀ x ∈ xs, ∃ y, f x = .ok y := by
  induction xs generalizing ys with
  | nil => simp
  | cons x xs ih =>
    rw [List.filterMapM_cons] at h
    obtain ⟨y, hf, h⟩ := bind_eq_ok_iff.1 h
    refine List.forall_mem_cons.2 ⟨⟨y, hf⟩, ?_⟩
    cases y with
    | none => exact ih h
    | some y =>
      obtain ⟨ys', h, -⟩ := bind_eq_ok_iff.1 h
      exact ih h

theorem mapM_eq_ok {f : α → Except ε β} {g : α → β} {xs : List α}
    (h : ∀ x ∈ xs, f x = .ok (g x)) : xs.mapM f = .ok (xs.map g) := by
  induction xs with
  | nil => rfl
  | cons x xs ih =>
    rw [List.mapM_cons, h x (by simp), ok_bind, ih fun y hy => h y (by simp [hy])]
    rfl

theorem mapM_eq_ok_iff {f : α → Except ε β} {xs : List α} {ys : List β} :
    xs.mapM f = .ok ys ↔ List.Forall₂ (fun x y => f x = .ok y) xs ys := by
  induction xs generalizing ys with
  | nil => simp [eq_comm]
  | cons x xs ih =>
    simp only [List.mapM_cons, bind_eq_ok_iff, pure_eq_ok, Except.ok.injEq, ih,
      List.forall₂_cons_left_iff]
    constructor
    · rintro ⟨y, hy, ys, hys, rfl⟩
      exact ⟨y, ys, hy, hys, rfl⟩
    · rintro ⟨y, ys, hy, hys, rfl⟩
      exact ⟨y, hy, ys, hys, rfl⟩

theorem exists_of_mapM {f : α → Except ε β} {xs : List α} {ys : List β} (h : xs.mapM f = .ok ys) :
    ∀ x ∈ xs, ∃ y, f x = .ok y := by
  have h := mapM_eq_ok_iff.1 h
  induction h with
  | nil => simp
  | cons hx _ ih => exact List.forall_mem_cons.2 ⟨⟨_, hx⟩, ih (mapM_eq_ok_iff.2 ‹_›)⟩

theorem exists_mapM {f : α → Except ε β} {xs : List α} (h : ∀ x ∈ xs, ∃ y, f x = .ok y) :
    ∃ ys, xs.mapM f = .ok ys := by
  induction xs with
  | nil => exact ⟨[], rfl⟩
  | cons x xs ih =>
    obtain ⟨y, hy⟩ := h x (by simp)
    obtain ⟨ys, hys⟩ := ih fun x hx => h x (by simp [hx])
    exact ⟨y :: ys, by rw [List.mapM_cons, hy, ok_bind, hys]; rfl⟩

/-- Where no entry is left out or fails, all results are as they should be. -/
theorem exists_filterMapM {f : α → Except ε (Option β)} {xs : List α} {p : β → Prop}
    (h : ∀ x ∈ xs, ∃ y, f x = .ok (some y) ∧ p y) :
    ∃ ys, xs.filterMapM f = .ok ys ∧ ∀ y ∈ ys, p y := by
  induction xs with
  | nil => exact ⟨[], rfl, by simp⟩
  | cons x xs ih =>
    obtain ⟨y, hy, hp⟩ := h x (by simp)
    obtain ⟨ys, hys, hps⟩ := ih fun x hx => h x (by simp [hx])
    exact ⟨y :: ys, by rw [List.filterMapM_cons, hy, ok_bind, hys]; rfl,
      List.forall_mem_cons.2 ⟨hp, hps⟩⟩

/-- Where no entry is left out, there is a result for each of them. -/
theorem forall₂_of_filterMapM {f : α → Except ε (Option β)} {xs : List α} {ys : List β}
    (h : xs.filterMapM f = .ok ys) (hf : ∀ x ∈ xs, ∀ y, f x = .ok y → y.isSome) :
    List.Forall₂ (fun x y => f x = .ok (some y)) xs ys := by
  induction xs generalizing ys with
  | nil => cases h; exact .nil
  | cons x xs ih =>
    rw [List.forall_mem_cons] at hf
    rw [List.filterMapM_cons] at h
    obtain ⟨y, hy, h⟩ := bind_eq_ok_iff.1 h
    obtain ⟨y', rfl⟩ := Option.isSome_iff_exists.1 (hf.1 y hy)
    obtain ⟨ys', hys', h⟩ := bind_eq_ok_iff.1 h
    cases h
    exact .cons hy (ih hys' hf.2)

theorem arrayMapM_eq_ok {f : α → Except ε β} {g : α → β} {xs : Array α}
    (h : ∀ x ∈ xs, f x = .ok (g x)) : xs.mapM f = .ok (xs.map g) := by
  have hlist : xs.toList.mapM f = .ok (xs.toList.map g) :=
    mapM_eq_ok fun x hx => h x (Array.mem_toList_iff.1 hx)
  rw [Array.mapM_eq_mapM_toList, hlist, ← Array.toList_map]
  rfl

/-! ## Loops on images -/

section Images

variable {σ τ : Type} {f : α → β}

/-- Two computations correspond if their first steps do and what follows those. -/
theorem bind_hom {F : σ → τ} {x : Except ε α} {x' : Except ε β} {g : α → Except ε σ}
    {g' : β → Except ε τ} (hx : x' = x.map f) (hg : ∀ a, g' (f a) = (g a).map F) :
    x' >>= g' = (x >>= g).map F := by
  rw [hx, bind_map_eq, map_bind_eq]
  exact congrArg _ (funext hg)

/-- What follows a first step may not see a difference in it. -/
theorem bind_eq_of_map {x : Except ε α} {x' : Except ε β} {g : α → Except ε σ}
    {g' : β → Except ε σ} (hx : x' = x.map f) (hg : ∀ a, g' (f a) = g a) : x' >>= g' = x >>= g := by
  rw [hx, bind_map_eq]
  exact congrArg _ (funext hg)

theorem bind_hom_right {F : σ → τ} {x : Except ε α} {g : α → Except ε σ} {g' : α → Except ε τ}
    (hg : ∀ a, g' a = (g a).map F) : x >>= g' = (x >>= g).map F := by
  rw [map_bind_eq]
  exact congrArg _ (funext hg)

theorem fetch_map (f : α → β) (table : Array α) (i : Nat) :
    fetch (table.map f) i = (fetch table i).map f := by
  rw [fetch, fetch, Array.getElem?_map]
  cases table[i]? <;> rfl

theorem adjust_map {g : α → α} {g' : β → β} (h : ∀ x, g' (f x) = f (g x)) (table : Array α)
    (i : Nat) : adjust (table.map f) i g' = (adjust table i g).map (Array.map f) := by
  rw [adjust, adjust, Array.size_map]
  split
  · refine congrArg Except.ok (Array.ext (by simp) fun j _ _ => ?_)
    simp only [Array.getElem_map, Array.getElem_modify]
    split
    · exact h _
    · rfl
  · rfl

/-- A loop whose steps map to those of another one maps to it. -/
theorem foldlM_hom (F : σ → τ) {g : σ → α → Except ε σ} {g' : τ → α → Except ε τ}
    (h : ∀ s x, g' (F s) x = (g s x).map F) (xs : List α) (s : σ) :
    xs.foldlM g' (F s) = (xs.foldlM g s).map F := by
  induction xs generalizing s with
  | nil => rfl
  | cons x xs ih =>
    rw [List.foldlM_cons, List.foldlM_cons]
    exact bind_hom (h s x) ih

theorem foldrM_hom (F : σ → τ) {g : α → σ → Except ε σ} {g' : α → τ → Except ε τ}
    (h : ∀ x s, g' x (F s) = (g x s).map F) (xs : List α) (s : σ) :
    xs.foldrM g' (F s) = (xs.foldrM g s).map F := by
  rw [← List.foldlM_reverse, ← List.foldlM_reverse]
  exact foldlM_hom F (fun s x => h x s) xs.reverse s

theorem mapM_hom {g : σ → Except ε α} {g' : σ → Except ε β} (h : ∀ x, g' x = (g x).map f)
    (xs : List σ) : xs.mapM g' = (xs.mapM g).map (List.map f) := by
  induction xs with
  | nil => rfl
  | cons x xs ih =>
    rw [List.mapM_cons, List.mapM_cons]
    exact bind_hom (h x) fun y => bind_hom ih fun ys => rfl

theorem liftM_map (x : Except Fault α) (f : α → β) :
    (liftM (x.map f) : Except Interrupt β) = (liftM x : Except Interrupt α).map f := by
  cases x <;> rfl

/-- Where the first steps can only meet faults. -/
theorem liftM_bind_hom {F : σ → τ} {x : Except Fault α} {x' : Except Fault β}
    {g : α → Except Interrupt σ} {g' : β → Except Interrupt τ} (hx : x' = x.map f)
    (hg : ∀ a, g' (f a) = (g a).map F) : liftM x' >>= g' = (liftM x >>= g).map F :=
  bind_hom (hx ▸ liftM_map x f) hg

end Images

/-! ## Tables that gather -/

theorem zipIdx_map_range (n : Nat) (g : Nat → α) :
    ((List.range n).map g).zipIdx = (List.range n).map fun i => (g i, i) := by
  apply List.ext_getElem <;> simp

/-- A table is the list of its entries. -/
theorem toList_eq_map_getD (table : Array α) (entry : α) :
    table.toList = (List.range table.size).map (table.getD · entry) := by
  apply List.ext_getElem
  · simp
  · intro i hi _
    have hi' : i < table.size := by simpa using hi
    simp [hi']

theorem blankWeights_eq_ok {n : Nat} (entry : α) (hn : 8 * n < tableBytes) :
    blankWeights n entry = .ok (Array.replicate n entry) :=
  blankTable_eq_ok_iff.2 ⟨hn, rfl⟩

theorem modify_const (table : Array α) (i : Nat) (x : α) :
    table.modify i (fun _ => x) = table.setIfInBounds i x := by
  apply Array.ext
  · simp
  · intro j h₁ h₂
    rw [Array.getElem_modify, Array.getElem_setIfInBounds (by simpa using h₂)]

theorem getD_setIfInBounds {labels : Array Nat} {v : Nat} (hv : v < labels.size) (c : Nat) :
    ((labels.setIfInBounds v c).getD · 0) = Function.update (labels.getD · 0) v c := by
  funext u
  by_cases hu : u = v
  · subst hu; simp [hv]
  · simp [Function.update_of_ne hu, Ne.symm hu]

section Gather

variable (key : α → Nat) (op : α → β → β)

/-- An entry gathers what belongs to it, in the order of the list. -/
theorem getElem?_foldl_modify (table : Array β) (xs : List α) (i : Nat) :
    (xs.foldl (fun table x => table.modify (key x) (op x)) table)[i]? =
      table[i]?.map fun b => (xs.filter (key · = i)).foldl (fun b x => op x b) b := by
  induction xs generalizing table with
  | nil => simp
  | cons x xs ih =>
    rw [List.foldl_cons, ih, Array.getElem?_modify]
    by_cases h : key x = i <;> simp [h, Function.comp_def]

/-- So an entry of a blank table gathers the sum of what belongs to it. -/
theorem getD_foldl_modify_add {W : Type} [Weight W] (key : Nat → Nat) (g : Nat → W) (n : Nat)
    {k c : Nat} (hc : c < k) :
    ((List.range n).foldl (fun table v => table.modify (key v) (· + g v))
        (Array.replicate k 0)).getD c 0 =
      Weight.sum (((List.range n).filter (key · = c)).map g) := by
  rw [Array.getD_eq_getD_getElem?, getElem?_foldl_modify key fun v => (· + g v), Weight.sum]
  simp [List.foldl_map, hc]

theorem foldlM_adjust {table : Array β} {xs : List α} (h : ∀ x ∈ xs, key x < table.size) :
    xs.foldlM (fun table x => adjust table (key x) (op x)) table =
      .ok (xs.foldl (fun table x => table.modify (key x) (op x)) table) :=
  (foldlM_eq_ok (fun t => t.size = table.size) rfl fun t ht x hx =>
    ⟨adjust_of_lt _ (ht ▸ h x hx), by rw [Array.size_modify, ht]⟩).1

theorem size_foldr_modify (table : Array β) (xs : List α) :
    (xs.foldr (fun x table => table.modify (key x) (op x)) table).size = table.size := by
  induction xs with
  | nil => rfl
  | cons x xs ih => rw [List.foldr_cons, Array.size_modify, ih]

/-- The same from the end of the list. -/
theorem getElem?_foldr_modify (table : Array β) (xs : List α) (i : Nat) :
    (xs.foldr (fun x table => table.modify (key x) (op x)) table)[i]? =
      table[i]?.map fun b => (xs.filter (key · = i)).foldr op b := by
  rw [← List.foldl_reverse, getElem?_foldl_modify, List.filter_reverse]
  simp only [List.foldl_reverse]

theorem foldrM_adjust {table : Array β} {xs : List α} (h : ∀ x ∈ xs, key x < table.size) :
    xs.foldrM (fun x table => adjust table (key x) (op x)) table =
      .ok (xs.foldr (fun x table => table.modify (key x) (op x)) table) := by
  rw [← List.foldlM_reverse, foldlM_adjust key op fun x hx => h x (List.mem_reverse.1 hx),
    List.foldl_reverse]

end Gather

end Communities
