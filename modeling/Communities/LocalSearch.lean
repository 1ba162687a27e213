import Communities.LocalSearch.Tally
import Communities.Modularity
import Communities.Settings
import Communities.Shuffle

/-!
# Local search

The search improves the communities of one level by moving one node at a time. A sweep gives every
node one turn, in a fixed order. The node looks at the communities of its neighbours other than its
own, and moves to the one with the largest gain if that is above the threshold; of equal gains the
lowest id wins. Later turns see the move. The search ends with the first sweep that moves no node.

* `turn` is the turn of one node, `Search.sweep` a sweep.
* `Search.run` is the search of a level. Its answer holds every move, sweep by sweep.
-/

namespace Communities

/-- A community to move to, and what that would gain. -/
structure Offer (W : Type) where
  /-- The community. -/
  community : Nat
  /-- The change of modularity. -/
  gain : W
  deriving DecidableEq, Repr

/-- A node's move from one community to another. -/
structure Move (W : Type) where
  /-- The node. -/
  node : Nat
  /-- The community it left. -/
  origin : Nat
  /-- The community it joined. -/
  target : Nat
  /-- The change of modularity. -/
  gain : W
  deriving DecidableEq, Repr

/-- What stays as it is while a level is searched. -/
structure Terrain (W : Type) where
  /-- The network of the level. -/
  net : Network W
  /-- Its degrees. -/
  degrees : Degrees W
  /-- A node moves if that gains more than this. -/
  threshold : W

/-- What changes while a level is searched. -/
structure Walk (W : Type) where
  /-- The communities. -/
  roster : Roster W
  /-- The tally of the node whose turn it is. -/
  tally : Tally W
  deriving DecidableEq, Repr

/-- One turn for every node. -/
structure Sweep (W : Type) where
  /-- The moves, in the order they were made. -/
  moves : List (Move W)
  /-- The number of communities at the end. -/
  communities : Nat
  deriving DecidableEq, Repr

/-- Space that one search leaves to the next. -/
structure Scratch (W : Type) where
  /-- The order of turns. -/
  order : Array Nat
  /-- The tally. -/
  tally : Tally W
  deriving DecidableEq, Repr

/-- How a search ends. -/
inductive Ending where
  /-- The last sweep moved no node. -/
  | settled
  /-- The cap on sweeps is reached. -/
  | capped
  deriving DecidableEq, Repr

/-- The search of a level. -/
structure Search (W : Type) where
  /-- The sweeps. -/
  sweeps : List (Sweep W)
  /-- How it ended. -/
  ending : Ending
  /-- The communities it ended with. -/
  roster : Roster W
  /-- Space for the next search. -/
  scratch : Scratch W
  deriving DecidableEq, Repr

/-- The nodes of a level of `n` nodes, in the order of their turns. -/
def VisitOrder.nodes (level n : Nat) : VisitOrder → Array Nat
  | ascending => Array.range n
  | shuffled seed => Communities.shuffled (seed + .ofNat level) n

variable {W : Type} [Weight W]

/-- The better of two offers; the first one if neither is. -/
def Offer.better (best : Option (Offer W)) (offer : Offer W) : Option (Offer W) :=
  match best with
  | none => some offer
  | some held => if held.gain < offer.gain then some offer else some held

/-- The best of the communities in a list for a node that is in `current`, by its tally. -/
def Tally.bestOffer (t : Tally W) (r : Roster W) (degree m : W) (current : Nat)
    (candidates : List Nat) : Except Fault (Option (Offer W)) := do
  let linkHere ← t.weight current
  let sumHere ← r.degreeSum current
  candidates.foldlM
    (fun best c => do
      if c = current then return best
      else
        let g ← gain degree linkHere sumHere (← t.weight c) (← r.degreeSum c) m
        return Offer.better best ⟨c, g⟩)
    none

namespace Search

/-- The best offer for `node`. The tally is clear again afterwards. -/
def offer (t : Terrain W) (roster : Roster W) (tally : Tally W) (node : Nat) :
    Except Fault (Option (Offer W) × Tally W) := do
  let current ← roster.community node
  let degree ← t.degrees.degree node
  let tally ← tally.collect t.net roster node
  let best ← tally.bestOffer roster degree t.degrees.total current tally.candidates
  return (best, ← tally.clear)

/-- The turn of `node`, and the move it makes. -/
def turn (t : Terrain W) (w : Walk W) (node : Nat) : Except Fault (Option (Move W) × Walk W) := do
  let ⟨roster, tally⟩ := w
  let current ← roster.community node
  let (best, tally) ← offer t roster tally node
  match best with
  | none => return (none, ⟨roster, tally⟩)
  | some o =>
    if t.threshold < o.gain then
      let roster ← roster.move node current o.community (← t.degrees.degree node)
      return (some ⟨node, current, o.community, o.gain⟩, ⟨roster, tally⟩)
    else
      return (none, ⟨roster, tally⟩)

/-- The turns of the nodes in a list, and the moves they make. -/
def turns (t : Terrain W) (w : Walk W) (nodes : List Nat) :
    Except Fault (List (Move W) × Walk W) := do
  let (moves, w) ← nodes.foldlM
    (fun (moves, w) node => do
      let (move, w) ← turn t w node
      return (move.toList ++ moves, w))
    ([], w)
  return (moves.reverse, w)

/-- A turn for every node. -/
def sweep (t : Terrain W) (w : Walk W) (order : Array Nat) : Except Fault (Sweep W × Walk W) := do
  let (moves, w) ← turns t w order.toList
  return (⟨moves, w.roster.occupied⟩, w)

/-- Sweeps until one moves no node: at most `left` if that is given, and never more than a
budget. -/
def settle (t : Terrain W) (order : Array Nat) :
    Nat → Option Nat → Walk W → Except Interrupt (List (Sweep W) × Ending × Walk W)
  | _, some 0, w => return ([], .capped, w)
  | 0, _, _ => .error .unfinished
  | budget + 1, left, w => do
    let (s, w) ← sweep t w order
    if s.moves.isEmpty then
      return ([s], .settled, w)
    else
      let (rest, ending, w) ← settle t order budget (left.map (· - 1)) w
      return (s :: rest, ending, w)

/-- The search of a level that starts from the communities `roster`. Where the degrees do not add up
to more than zero there is nothing to gain, and no sweep is made. -/
def run (settings : Settings W) (budget : Nat) (net : Network W) (degrees : Degrees W)
    (roster : Roster W) (level : Nat) (scratch : Scratch W) : Except Interrupt (Search W) := do
  if 0 < degrees.total then
    let order := settings.order.nodes level net.size
    let tally := scratch.tally.blank roster.capacity
    let (sweeps, ending, ⟨roster, tally⟩) ←
      settle ⟨net, degrees, settings.threshold⟩ order budget settings.maxSweeps ⟨roster, tally⟩
    return ⟨sweeps, ending, roster, ⟨order, tally⟩⟩
  else
    return ⟨[], .settled, roster, scratch⟩

/-- The number of moves in all sweeps. -/
def moveCount (s : Search W) : Nat := (s.sweeps.flatMap (·.moves)).length

end Search

/-- No space to reuse. -/
def Scratch.empty : Scratch W := ⟨#[], .empty⟩

end Communities
