import Communities.Proofs.Network.Aggregate
import Mathlib.Logic.Relation

/-!
# Paths

Two nodes are adjacent if there is an edge between them, whatever its weight, and a path goes from
one node to an adjacent one, and so on. A path through a network that has been drawn together is one
through the original network, which may go from any member of a class to any other on its way. This
holds in any arithmetic.

* `Network.Adjacent`, with `Network.adjacent_of_mem_row`: the links of a node lead to the adjacent
  ones.
* `Network.Path`; `Network.path_of_path_condense`: a path through what is drawn together, if the
  members of each class are joined.
-/

namespace Communities

theorem Edge.Joins.symm {W : Type} {e : Edge W} {u v : Nat} (h : e.Joins u v) : e.Joins v u :=
  Or.symm h

namespace Network

variable {W : Type} {net reduced : Network W} {u v : Nat}

/-- There is an edge between the two nodes. -/
def Adjacent (net : Network W) (u v : Nat) : Prop := ∃ e ∈ net.edges, e.Joins u v

/-- There is a path from one node to the other. -/
def Path (net : Network W) : Nat → Nat → Prop := Relation.ReflTransGen net.Adjacent

theorem Adjacent.symm (h : net.Adjacent u v) : net.Adjacent v u :=
  h.imp fun _ he => he.imp_right Edge.Joins.symm

instance : Std.Symm net.Adjacent := ⟨fun _ _ => Adjacent.symm⟩

theorem Path.symm (h : net.Path u v) : net.Path v u :=
  Relation.ReflTransGen.stdSymm.symm _ _ h

theorem Canonical.lt_of_adjacent (hnet : net.Canonical) (h : net.Adjacent u v) :
    u < net.size ∧ v < net.size := by
  obtain ⟨e, he, ⟨rfl, rfl⟩ | ⟨rfl, rfl⟩⟩ := h
  · exact hnet.endsBelow e he
  · exact (hnet.endsBelow e he).symm

theorem adjacent_of_mem_row (hnet : net.Canonical) (hu : u < net.size) {link : Link W}
    (hlink : link ∈ net.row u) : net.Adjacent u link.target := by
  rw [hnet.row_eq hu] at hlink
  obtain ⟨e, he, hseen⟩ := List.mem_filterMap.1 hlink
  refine ⟨e, he, ?_⟩
  unfold Edge.seenFrom at hseen
  split at hseen
  · next hs => cases hseen; exact .inl ⟨hs, rfl⟩
  · split at hseen
    · next ht => cases hseen; exact .inr ⟨rfl, ht⟩
    · cases hseen

variable [Weight W] {p : Partition}

theorem adjacent_condense (hnet : net.Canonical) (hp : p.Fits net.size)
    (h : net.condense p = .ok reduced) {c d : Nat} :
    reduced.Adjacent c d ↔ ∃ a b, net.Adjacent a b ∧ p.labelAt a = c ∧ p.labelAt b = d := by
  obtain ⟨reduced', h', -, -, hedges⟩ := hnet.condense_eq_ok_of_fits hp
  rw [h'] at h
  cases h
  rw [Adjacent, hedges, joins_mergeParallel]
  simp only [List.mem_map, exists_exists_and_eq_and, Edge.joins_mapEnds]
  exact ⟨fun ⟨e, he, a, b, hab, hcd⟩ => ⟨a, b, ⟨e, he, hab⟩, hcd⟩,
    fun ⟨a, b, ⟨e, he, hab⟩, hcd⟩ => ⟨e, he, a, b, hab, hcd⟩⟩

/-- A path through what has been drawn together is one through the network, if there is a way from
each member of a class to each other one. The way need not be a path of the network itself. -/
theorem path_of_path_condense {R : Nat → Nat → Prop} (hnet : net.Canonical) (hp : p.Fits net.size)
    (h : net.condense p = .ok reduced) (hadjacent : ∀ a b, net.Adjacent a b → R a b)
    (hclass : ∀ a < net.size, ∀ b < net.size, p.labelAt a = p.labelAt b →
      Relation.ReflTransGen R a b)
    (hu : u < net.size) (hv : v < net.size) (hpath : reduced.Path (p.labelAt u) (p.labelAt v)) :
    Relation.ReflTransGen R u v := by
  -- The induction is on the path from its start, which is any member of the first class.
  suffices hmember : ∀ c, reduced.Path c (p.labelAt v) →
      ∀ a < net.size, p.labelAt a = c → Relation.ReflTransGen R a v from
    hmember _ hpath u hu rfl
  intro c hpath
  induction hpath using Relation.ReflTransGen.head_induction_on with
  | refl => exact fun a ha hav => hclass a ha v hv hav
  | head hcd _ ih =>
    intro a ha hac
    obtain ⟨b, b', hbb', rfl, rfl⟩ := (adjacent_condense hnet hp h).1 hcd
    obtain ⟨hb, hb'⟩ := hnet.lt_of_adjacent hbb'
    exact ((hclass a ha b hb hac).tail (hadjacent b b' hbb')).trans (ih b' hb' rfl)

end Network

end Communities
