import Communities.Proofs.Loop

/-!
# Loops that fail

A loop in `Except` ends with the first step that fails: the steps before it have succeeded, and what
comes behind it does not matter.

* `foldlM_eq_error_iff` and `mapM_eq_error_iff`: a loop fails with the error of its first step that
  fails.
* `Heeds`: a computation fails with the first of some objections; `Heeds.bind`: the objections to
  two steps are those to the first one and then those to the second one.
* `map_filterMapM_eq_foldlM`: a loop that gathers results is one that passes them on.
-/

namespace Communities

variable {ε α β : Type}

theorem foldlM_eq_error_iff {f : β → α → Except ε β} {xs : List α} {b : β} {e : ε} :
    xs.foldlM f b = .error e ↔ ∃ before x after b', xs = before ++ x :: after ∧
      before.foldlM f b = .ok b' ∧ f b' x = .error e := by
  constructor
  · intro h
    induction xs generalizing b with
    | nil => cases h
    | cons x xs ih =>
      rw [List.foldlM_cons, bind_eq_error_iff] at h
      obtain h | ⟨b', hx, h⟩ := h
      · exact ⟨[], x, xs, b, rfl, rfl, h⟩
      · obtain ⟨before, y, after, b'', rfl, hbefore, hy⟩ := ih h
        refine ⟨x :: before, y, after, b'', rfl, ?_, hy⟩
        rw [List.foldlM_cons, hx, ok_bind, hbefore]
  · rintro ⟨before, x, after, b', rfl, hbefore, hx⟩
    rw [List.foldlM_append, hbefore, ok_bind, List.foldlM_cons, hx]
    rfl

theorem mapM_eq_error_iff {f : α → Except ε β} {xs : List α} {e : ε} :
    xs.mapM f = .error e ↔ ∃ before x after ys, xs = before ++ x :: after ∧
      before.mapM f = .ok ys ∧ f x = .error e := by
  constructor
  · intro h
    induction xs with
    | nil => cases h
    | cons x xs ih =>
      rw [List.mapM_cons, bind_eq_error_iff] at h
      obtain h | ⟨y, hx, h⟩ := h
      · exact ⟨[], x, xs, [], rfl, rfl, h⟩
      · obtain h | ⟨ys, -, h⟩ := bind_eq_error_iff.1 h
        · obtain ⟨before, x', after, ys, rfl, hbefore, hx'⟩ := ih h
          refine ⟨x :: before, x', after, y :: ys, rfl, ?_, hx'⟩
          rw [List.mapM_cons, hx, ok_bind, hbefore]
          rfl
        · cases h
  · rintro ⟨before, x, after, ys, rfl, hbefore, hx⟩
    rw [List.mapM_append, hbefore, ok_bind, List.mapM_cons, hx]
    rfl

/-! ## The first objection -/

/-- The computation fails with the first of the objections, and succeeds if there is none. -/
def Heeds (x : Except ε α) (objections : List ε) : Prop :=
  ∀ e, x = .error e ↔ objections.head? = some e

namespace Heeds

theorem ok (a : α) : Heeds (.ok a : Except ε α) [] := by simp [Heeds]

theorem error (e : ε) (es : List ε) : Heeds (.error e : Except ε α) (e :: es) := by simp [Heeds]

variable {x : Except ε α} {es es' : List ε}

theorem exists_ok_iff (h : Heeds x es) : (∃ a, x = .ok a) ↔ es = [] := by
  cases x with
  | ok a =>
    cases es with
    | nil => simp
    | cons e es => cases (h e).2 rfl
  | error e =>
    have hes := (h e).1 rfl
    refine iff_of_false (by simp) ?_
    rintro rfl
    cases hes

theorem bind {f : α → Except ε β} (h : Heeds x es) (hf : ∀ a, x = .ok a → Heeds (f a) es') :
    Heeds (x >>= f) (es ++ es') := by
  cases es with
  | nil =>
    obtain ⟨a, rfl⟩ := h.exists_ok_iff.2 rfl
    exact hf a rfl
  | cons e es =>
    rw [(h e).2 rfl]
    exact error e (es ++ es')

/-- A check that comes first counts first. -/
theorem ite {p : Prop} [Decidable p] (e : ε) (h : ¬p → Heeds x es) :
    Heeds (if p then .error e else x) ((if p then [e] else []) ++ es) := by
  by_cases hp : p
  · rw [if_pos hp, if_pos hp]
    exact error e es
  · rw [if_neg hp, if_neg hp]
    exact h hp

end Heeds

/-! ## Gathering -/

/-- A list of results can be gathered at the end of a list. -/
theorem map_filterMapM_eq_foldlM (f : α → Except ε (Option β)) (xs : List α) (ys : List β) :
    (xs.filterMapM f).map (ys ++ ·) =
      xs.foldlM (fun ys x => (f x).map fun y => ys ++ y.toList) ys := by
  induction xs generalizing ys with
  | nil => simp [Except.map]
  | cons x xs ih =>
    rw [List.filterMapM_cons, List.foldlM_cons]
    cases f x with
    | error e => rfl
    | ok y =>
      rw [ok_bind]
      refine Eq.trans ?_ (ih _)
      cases y with
      | none => simp
      | some y => cases xs.filterMapM f <;> simp [Except.map]

end Communities
