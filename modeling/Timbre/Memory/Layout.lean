import Timbre.Memory.Placement
import Timbre.Warning

/-! # Layouts

The addresses of a tree form a valid layout if its order makes sense, no two nodes share an item,
every node that takes memory has a range, and no two conflicting ranges overlap. A tree is solved by
a strategy whose proposal is checked, and may be bounded by a number of bytes.
-/
namespace Timbre.Memory

namespace Tree

/-- The ranges of the nodes that take memory, if all of them have one. -/
def ranges? (t : Tree) : Option (List Placed) :=
  (t.nodes.toList.zipIdx.filter fun p => p.1.size != 0).mapM fun p =>
    p.1.range?.map fun r => ⟨p.2, r.1, r.2⟩

/-- Two ranges overlap although their nodes conflict. -/
def clash (l : Liveness) (t : Tree) (a b : Placed) : Bool :=
  a.start < b.stop && b.start < a.stop && l.conflicts t a.node b.node

def noClash (l : Liveness) (t : Tree) : List Placed → Bool
  | [] => true
  | p :: ps => ps.all (!clash l t p ·) && noClash l t ps

def validate (t : Tree) : Bool :=
  match t.liveness with
  | .error _ => false
  | .ok l =>
    t.ItemsDistinct &&
      match t.ranges? with
      | none => false
      | some ranges => noClash l t ranges

def footprint (t : Tree) : Nat :=
  (t.nodes.toList.filter (·.size != 0)).foldl (fun top n => max top ((n.range?.map (·.2)).getD 0)) 0

def unshared (t : Tree) : Nat := t.nodes.toList.foldl (fun total n => total + n.size) 0

end Tree

structure Layout where
  footprint : Nat
  unshared : Nat
  strategy : String
deriving DecidableEq, Repr

namespace Layout

def saved (l : Layout) : Nat := l.unshared - l.footprint

end Layout

/-- Gives every node the address that the strategy proposes for it. The proposal is refused if it
does not form a valid layout, or if its footprint is over the limit; then no address is left. A tree
that makes no sense and a proposal of the wrong length are refused before anything is changed. -/
def solve (strategy : Strategy) (limit : Option Nat) (t : Tree) : Outcome Tree Layout :=
  match t.liveness with
  | .error e => ⟨t, .error (.malformedTree e), []⟩
  | .ok l =>
    if ¬ t.ItemsDistinct then ⟨t, .error (.malformedTree .sharedItem), []⟩
    else
      let addresses := strategy.place t l
      if addresses.length ≠ t.size then ⟨t, .error (.invalidLayout strategy.name), []⟩
      else
        let placed := t.assign addresses
        if placed.validate then
          let layout : Layout := ⟨placed.footprint, placed.unshared, strategy.name⟩
          match limit with
          | none => ⟨placed, .ok layout, []⟩
          | some limit =>
            if limit < layout.footprint then
              ⟨placed.clearAddresses, .error (.allocationExhausted layout.footprint limit), []⟩
            else ⟨placed, .ok layout, []⟩
        else ⟨placed.clearAddresses, .error (.invalidLayout strategy.name), []⟩

end Timbre.Memory
