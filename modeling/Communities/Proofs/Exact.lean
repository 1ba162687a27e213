import Communities.Weight
import Mathlib.Algebra.BigOperators.Field
import Mathlib.Algebra.Order.BigOperators.Group.List
import Mathlib.Algebra.Order.Field.Rat
import Mathlib.Tactic

/-!
# Exact arithmetic

The library computes over any type with the operations of `Weight`. An ordered field has them, and
there they are exact: a sum does not depend on the order of its terms, and a comparison of two
scores is one of their true values. The definitions that run over `Float` are the same ones.
-/

namespace Communities

namespace Weight

variable {K : Type} [Field K] [LinearOrder K]

/-- The operations of an ordered field, where every number is finite. -/
instance (priority := low) ofField : Weight K where
  toZero := inferInstance
  toOne := inferInstance
  toAdd := inferInstance
  toSub := inferInstance
  toMul := inferInstance
  toDiv := inferInstance
  toLT := inferInstance
  toLE := inferInstance
  toBEq := inferInstance
  decLt := inferInstance
  decLe := inferInstance
  isFinite _ := true

theorem sum_eq (ws : List K) : Weight.sum ws = ws.sum := by
  rw [Weight.sum, List.sum_eq_foldl]

theorem two_eq : (Weight.two : K) = 2 := one_add_one_eq_two

theorem valid_iff (w : K) : Weight.Valid w ↔ 0 ≤ w := by
  simp [Weight.Valid, isFinite]

/-- Over the rational numbers they are those of `Rat` itself, which evaluate. -/
theorem ofField_rat : (ofField : Weight ℚ) =
    { toZero := ⟨0⟩
      toOne := ⟨1⟩
      toAdd := ⟨Rat.add⟩
      toSub := ⟨Rat.sub⟩
      toMul := ⟨Rat.mul⟩
      toDiv := ⟨Rat.div⟩
      toLT := ⟨fun a b => Rat.blt a b = true⟩
      toLE := ⟨fun a b => Rat.blt b a = false⟩
      toBEq := ⟨fun a b => decide (a = b)⟩
      decLt := fun a b => inferInstanceAs (Decidable (Rat.blt a b = true))
      decLe := fun a b => inferInstanceAs (Decidable (Rat.blt b a = false))
      isFinite := fun _ => true } :=
  rfl

end Weight

end Communities
