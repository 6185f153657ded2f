import Timbre.Memory.Liveness

/-! # Placement strategies

A strategy proposes an address for every node. Any function is a strategy: what it proposes is
checked before it is used. First fit goes through the order and puts each node at the lowest address
at which it does not overlap a node placed before that it conflicts with; it looks at zero and at
the ends of the ranges in its way. The sequential strategy shares nothing.
-/
namespace Timbre.Memory

structure Strategy where
  name : String
  place : Tree → Liveness → List Nat

structure Placed where
  node : Nat
  start : Nat
  stop : Nat
deriving DecidableEq, Repr

namespace Placed

/-- The range `[start, start + size)` does not overlap. -/
def clears (p : Placed) (start size : Nat) : Bool := start + size ≤ p.start || p.stop ≤ start

end Placed

namespace FirstFit

/-- The placed nodes that are in the way of a node. -/
def busy (t : Tree) (l : Liveness) (placed : List Placed) (i : Nat) : List Placed :=
  placed.filter fun p => l.conflicts t i p.node

def candidates (busy : List Placed) : List Nat := (busy.map Placed.stop ++ [0]).mergeSort (· ≤ ·)

/-- The first candidate that clears everything in the way; the highest end always does. -/
def address (busy : List Placed) (size : Nat) : Nat :=
  match (candidates busy).find? fun start => busy.all (·.clears start size) with
  | some start => start
  | none => ((busy.map (·.stop)).max?).getD 0

/-- Places one node after the others. A node of size zero takes no place. -/
def step (t : Tree) (l : Liveness) (placed : List Placed) (i : Nat) : List Placed :=
  if t.sizeOf i = 0 then placed
  else
    let start := address (busy t l placed i) (t.sizeOf i)
    placed ++ [⟨i, start, start + t.sizeOf i⟩]

def run (t : Tree) (l : Liveness) : List Placed := t.order.foldl (step t l) []

end FirstFit

namespace Sequential

def step (t : Tree) (acc : List Placed × Nat) (i : Nat) : List Placed × Nat :=
  if t.sizeOf i = 0 then acc
  else (acc.1 ++ [⟨i, acc.2, acc.2 + t.sizeOf i⟩], acc.2 + t.sizeOf i)

def run (t : Tree) : List Placed := (t.order.foldl (step t) ([], 0)).1

end Sequential

/-- The addresses of all nodes, zero for those without a place. -/
def addressList (t : Tree) (placed : List Placed) : List Nat :=
  (List.range t.size).map fun i =>
    ((placed.find? fun p => p.node == i).map (·.start)).getD 0

namespace Strategy

def firstFit : Strategy := ⟨"first-fit", fun t l => addressList t (FirstFit.run t l)⟩

def sequential : Strategy := ⟨"sequential", fun t _ => addressList t (Sequential.run t)⟩

end Strategy

end Timbre.Memory
