import Communities.Network

/-!
# Weighted degrees

The degree of a node is the weight of its links, a loop counted twice. The total of all degrees is
twice the weight of all edges.
-/

namespace Communities

/-- The weighted degrees of the nodes of a network. -/
structure Degrees (W : Type) where
  /-- The degree of each node. -/
  byNode : Array W
  /-- The sum of all degrees. -/
  total : W
  deriving DecidableEq, Repr

variable {W : Type} [Weight W]

/-- The degree of a node, where `id` is its own id. -/
def Node.degree (self : Node W) (id : Nat) : W :=
  Weight.sum <| self.links.map fun link =>
    if link.target = id then Weight.two * link.weight else link.weight

/-- The degrees of all nodes. -/
def Network.degrees (net : Network W) : Degrees W :=
  let byNode := net.nodes.mapIdx fun id self => self.degree id
  ⟨byNode, Weight.sum byNode.toList⟩

/-- The degree of `node`. -/
def Degrees.degree (d : Degrees W) (node : Nat) : Except Fault W := fetch d.byNode node

end Communities
