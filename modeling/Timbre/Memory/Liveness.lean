import Timbre.Memory.Tree

/-! # Live spans

A node is live from its own position in the order to the position of its last child, or to the end
of the order if it is retained or has no children. Two nodes conflict, so that they may not share
memory, if one is the other's parent, if they have the same parent, or if their spans meet.
-/
namespace Timbre.Memory

/-- Positions in the order, both included. -/
structure Span where
  first : Nat
  last : Nat
deriving DecidableEq, Repr

def Span.meets (a b : Span) : Bool := a.first ≤ b.last && b.first ≤ a.last

structure Liveness where
  spans : List Span
deriving DecidableEq, Repr

namespace Tree

/-- Every entry of the order is a node, and none stands in it twice. -/
def checkEntries (count : Nat) : (seen : List Nat) → List Nat → Except TreeProblem Unit
  | _, [] => .ok ()
  | seen, i :: rest =>
    if count ≤ i then .error .missingNode
    else if i ∈ seen then .error .repeatedNode
    else checkEntries count (i :: seen) rest

def position (t : Tree) (i : Nat) : Nat := t.order.idxOf i

/-- The last position at which the memory of a node is in use. -/
def lastUse (t : Tree) (n : Node) : Nat :=
  if n.retained then t.size - 1
  else match (n.children.map t.position).max? with
    | none => t.size - 1
    | some last => last

def ParentsFirst (t : Tree) : Prop :=
  ∀ i : Fin t.nodes.size, ∀ p ∈ t.nodes[i].parent, t.position p < t.position i

instance (t : Tree) : Decidable t.ParentsFirst :=
  inferInstanceAs (Decidable (∀ i : Fin t.nodes.size, ∀ p ∈ t.nodes[i].parent, _))

/-- The spans of a tree whose order starts at the root and visits every node once, each after its
parent. -/
def liveness (t : Tree) : Except TreeProblem Liveness :=
  if t.order.head? ≠ some 0 then .error .notFromRoot
  else if t.order.length ≠ t.size then .error .notEveryNode
  else match checkEntries t.size [] t.order with
    | .error e => .error e
    | .ok () =>
      if t.ParentsFirst then
        .ok ⟨t.nodes.toList.mapIdx fun i n => ⟨t.position i, t.lastUse n⟩⟩
      else .error .beforeParent

end Tree

namespace Liveness

def span (l : Liveness) (i : Nat) : Span := l.spans[i]?.getD ⟨0, 0⟩

def conflicts (l : Liveness) (t : Tree) (a b : Nat) : Bool :=
  a != b &&
    (t.parent? a == some b || t.parent? b == some a ||
      ((t.parent? a).isSome && t.parent? a == t.parent? b) ||
      (l.span a).meets (l.span b))

end Liveness

end Timbre.Memory
