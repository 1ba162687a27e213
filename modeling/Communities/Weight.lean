/-!
# Weights

The library computes over any type with the operations of `Weight` and asks for no laws: every
definition fixes the order of its operations, so a run over `Float` is reproducible to the last
bit, and a run over a field with an order is the same computation in exact arithmetic.

* `Weight.sum` adds a list up from the left, starting at zero.
* `Weight.Valid` is what an input weight has to be: finite and not negative.
-/

namespace Communities

/-- The arithmetic of edge weights, populations and scores. -/
class Weight (W : Type) where
  /-- The number zero. -/
  [toZero : Zero W]
  /-- The number one. -/
  [toOne : One W]
  /-- Addition. -/
  [toAdd : Add W]
  /-- Subtraction. -/
  [toSub : Sub W]
  /-- Multiplication. -/
  [toMul : Mul W]
  /-- Division. -/
  [toDiv : Div W]
  /-- The strict order. -/
  [toLT : LT W]
  /-- The order. -/
  [toLE : LE W]
  /-- The test of equality. -/
  [toBEq : BEq W]
  /-- `<` can be decided. -/
  decLt : DecidableLT W
  /-- `≤` can be decided. -/
  decLe : DecidableLE W
  /-- Neither infinite nor undefined. -/
  isFinite : W → Bool

section Operations

-- A type that has these operations anyway keeps its own.
variable {W : Type} [Weight W]

instance (priority := low) Weight.instZero : Zero W := toZero

instance (priority := low) Weight.instOne : One W := toOne

instance (priority := low) Weight.instAdd : Add W := toAdd

instance (priority := low) Weight.instSub : Sub W := toSub

instance (priority := low) Weight.instMul : Mul W := toMul

instance (priority := low) Weight.instDiv : Div W := toDiv

instance (priority := low) Weight.instLT : LT W := toLT

instance (priority := low) Weight.instLE : LE W := toLE

instance (priority := low) Weight.instBEq : BEq W := toBEq

instance (priority := low) Weight.instDecidableLT : DecidableLT W := decLt

instance (priority := low) Weight.instDecidableLE : DecidableLE W := decLe

end Operations

/-- Double precision numbers with their rounding. -/
instance : Weight Float where
  decLt := inferInstance
  decLe := inferInstance
  isFinite := Float.isFinite

namespace Weight

variable {W : Type} [Weight W]

/-- The number two. -/
def two : W := 1 + 1

/-- The sum of a list, added up from the left. -/
def sum (ws : List W) : W := ws.foldl (· + ·) 0

/-- Fit to be the weight of an edge: finite and not negative. -/
def Valid (w : W) : Prop := isFinite w = true ∧ 0 ≤ w

instance (w : W) : Decidable (Valid w) := inferInstanceAs (Decidable (_ ∧ _))

@[simp] theorem sum_nil : sum ([] : List W) = 0 := rfl

theorem sum_concat (ws : List W) (w : W) : sum (ws ++ [w]) = sum ws + w := by
  simp [sum]

end Weight

end Communities
