import Communities.Shuffle.Keystream

/-!
# Shuffled orders

An order of the numbers below `n` that depends on a seed alone: each place, from the last one
down, is swapped with a place drawn from those up to it.

* `Keystream.below` draws a number below a bound, every one equally likely.
* `shuffled` is the order; it holds every number below `n` once.
-/

namespace Communities

/-- The number of values of a word. -/
def wordBound : Nat := 4294967296

/-- A draw is repeated at most so many times. A word is refused with probability below one half, so
no seed is known to come near. -/
def maxRedraws : Nat := 1000

/-- The words up to this one stand for numbers below `bound` evenly; it is the largest such multiple
of `bound` by a power of two, less one. -/
def acceptanceZone (bound : Nat) : Nat := bound <<< (31 - bound.log2) - 1

namespace Keystream

/-- A number below `bound`, by the upper half of the product with a word. The lower half says
whether the word is taken; after `redraws` refusals the next one is. -/
def belowWithin (bound : Nat) : Nat → Keystream → Nat × Keystream
  | 0, stream =>
    let (word, stream) := stream.next
    (word.toNat * bound / wordBound, stream)
  | redraws + 1, stream =>
    let (word, stream) := stream.next
    let product := word.toNat * bound
    if product % wordBound ≤ acceptanceZone bound then (product / wordBound, stream)
    else belowWithin bound redraws stream

/-- A number below `bound`, which is at least one and has at most 32 bits. -/
def below (bound : Nat) (stream : Keystream) : Nat × Keystream :=
  stream.belowWithin bound maxRedraws

end Keystream

/-- The order after the places up to `i` have been swapped, from `i` down. -/
def shuffleUpTo : Nat → Array Nat → Keystream → Array Nat
  | 0, order, _ => order
  | i + 1, order, stream =>
    let drawn := stream.below (i + 2)
    shuffleUpTo i (order.swapIfInBounds (i + 1) drawn.1) drawn.2

/-- The numbers below `n` in the order of a seed. -/
def shuffled (seed : UInt64) (n : Nat) : Array Nat :=
  shuffleUpTo (n - 1) (Array.range n) (.ofSeed seed)

/-! ## Laws -/

theorem swapIfInBounds_perm (order : Array Nat) (i j : Nat) :
    (order.swapIfInBounds i j).Perm order := by
  unfold Array.swapIfInBounds
  split
  · split
    · exact Array.swap_perm _ _
    · exact .refl _
  · exact .refl _

theorem shuffleUpTo_perm (i : Nat) (order : Array Nat) (stream : Keystream) :
    (shuffleUpTo i order stream).Perm order := by
  induction i generalizing order stream with
  | zero => exact .refl _
  | succ i ih =>
    rw [shuffleUpTo]
    exact (ih _ _).trans (swapIfInBounds_perm _ _ _)

/-- Every number below `n` stands in the shuffled order once. -/
theorem shuffled_perm (seed : UInt64) (n : Nat) : (shuffled seed n).Perm (Array.range n) :=
  shuffleUpTo_perm _ _ _

end Communities
