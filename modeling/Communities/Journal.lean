import Communities.LocalSearch

/-!
# Journals

A journal lists what a solver did, in order. It is data: what of it is shown to whom, and in which
words, is decided elsewhere.
-/

namespace Communities

/-- Something that a solver did. -/
inductive Event (W : Type) where
  /-- It found no edges and took the seed, or every node alone, for the answer. -/
  | edgeless (seeded : Bool)
  /-- It moved a node. -/
  | move (move : Move W)
  /-- It finished a sweep of a level; sweeps are numbered from one. -/
  | sweep (level number moves communities : Nat)
  /-- It finished a level. -/
  | level (number nodes communities moves sweeps : Nat) (modularity : W)
  deriving DecidableEq, Repr

variable {W : Type}

/-- The entries for one sweep: its moves, then the sweep itself. -/
def Sweep.events (level number : Nat) (s : Sweep W) : List (Event W) :=
  s.moves.map .move ++ [.sweep level number s.moves.length s.communities]

/-- The entries for the search of a level. -/
def Search.events (level : Nat) (s : Search W) : List (Event W) :=
  s.sweeps.zipIdx.flatMap fun (sweep, i) => sweep.events level (i + 1)

end Communities
