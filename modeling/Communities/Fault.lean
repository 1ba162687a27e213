import Communities.Bounds

/-!
# Faults

A fault is a mistake of the caller that a function meets while it works: an index past the end of
a table, a counter that leaves its width, a condition that the caller had promised. A function
that can meet one returns `Except Fault`; what could be wrong with the *data* of a problem is no
fault but a `Rejection`.

* `fetch` and `adjust` read and update one entry of a table, with the index checked.
* `blankWeights` and `blankLists` make a table, with its size checked.
* `Interrupt` adds the one other way to end without an answer: a search that is still going when
  its budget of sweeps is spent.
-/

namespace Communities

/-- What a caller got wrong. -/
inductive Fault where
  /-- An index past the end of a table. -/
  | outOfRange
  /-- A label whose successor does not fit 64 bits. -/
  | labelOverflow
  /-- A table that would take more bytes than a 63-bit number can count. -/
  | tableTooLarge
  /-- A network with more nodes than 32-bit ids can count. -/
  | tooManyNodes
  /-- A node that is said to leave a community it is not in. -/
  | strayMember
  /-- A link of one node that is taken for a link of another. -/
  | strayLink
  /-- The gain of a move in a network without positive weight. -/
  | weightless
  /-- A hierarchy of no levels. -/
  | noLevels
  deriving DecidableEq, Repr

/-- How a computation can end without an answer. -/
inductive Interrupt where
  /-- The caller made a mistake. -/
  | fault (fault : Fault)
  /-- The budget of sweeps is spent and nodes still move. -/
  | unfinished
  deriving DecidableEq, Repr

/-- A fault ends a longer computation too. -/
instance : MonadLift (Except Fault) (Except Interrupt) where
  monadLift x := x.mapError .fault

/-! ## Checked tables -/

/-- The entry at `i`. -/
def fetch {α : Type} (table : Array α) (i : Nat) : Except Fault α :=
  match table[i]? with
  | some x => .ok x
  | none => .error .outOfRange

/-- The table with `f` applied to the entry at `i`. -/
def adjust {α : Type} (table : Array α) (i : Nat) (f : α → α) : Except Fault (Array α) :=
  if i < table.size then .ok (table.modify i f) else .error .outOfRange

/-- A table of `n` entries, each of which takes `width` bytes. -/
def blankTable {α : Type} (width n : Nat) (entry : α) : Except Fault (Array α) :=
  if width * n < tableBytes then .ok (Array.replicate n entry) else .error .tableTooLarge

/-- A table of `n` weights; a weight takes 8 bytes. -/
def blankWeights {α : Type} (n : Nat) (entry : α) : Except Fault (Array α) :=
  blankTable 8 n entry

/-- A table of `n` empty lists; the head of a list takes 24 bytes. -/
def blankLists {α : Type} (n : Nat) : Except Fault (Array (List α)) :=
  blankTable 24 n []

/-! ## Laws -/

theorem fetch_eq_ok_iff {α : Type} {table : Array α} {i : Nat} {x : α} :
    fetch table i = .ok x ↔ table[i]? = some x := by
  unfold fetch
  cases table[i]? <;> simp

theorem fetch_of_lt {α : Type} {table : Array α} {i : Nat} (h : i < table.size) :
    fetch table i = .ok table[i] := by
  simp [fetch, h]

theorem fetch_eq_error_iff {α : Type} {table : Array α} {i : Nat} {e : Fault} :
    fetch table i = .error e ↔ table.size ≤ i ∧ e = .outOfRange := by
  unfold fetch
  cases h : table[i]? with
  | none =>
    have : table.size ≤ i := Array.getElem?_eq_none_iff.1 h
    simp [this, eq_comm]
  | some x =>
    have : i < table.size := (Array.getElem?_eq_some_iff.1 h).1
    simp; omega

theorem adjust_of_lt {α : Type} {table : Array α} {i : Nat} (f : α → α) (h : i < table.size) :
    adjust table i f = .ok (table.modify i f) := by
  simp [adjust, h]

theorem adjust_eq_ok_iff {α : Type} {table new : Array α} {i : Nat} {f : α → α} :
    adjust table i f = .ok new ↔ i < table.size ∧ new = table.modify i f := by
  unfold adjust
  split
  · next h => simp [h, eq_comm]
  · next h => simp [h]

theorem blankTable_eq_ok_iff {α : Type} {width n : Nat} {entry : α} {table : Array α} :
    blankTable width n entry = .ok table ↔
      width * n < tableBytes ∧ table = Array.replicate n entry := by
  unfold blankTable
  split
  · next h => simp [h, eq_comm]
  · next h => simp [h]

end Communities
