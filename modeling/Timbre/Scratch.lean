import Timbre.Fault

/-! # Scratch pools

A pool is a fixed number of slots that concurrent work shares. A use takes the first free slot,
keeps it while it runs, and leaves it free again with a new value. A use inside a use takes the next
free slot; a use that finds none never gets on.
-/
namespace Timbre

structure Slot (α : Type) where
  value : α
  busy : Bool := false

structure ScratchPool (α : Type) where
  slots : Array (Slot α)

namespace ScratchPool

variable {α β : Type}

/-- A pool of `size` slots, but of one at the least. -/
def ofSize (size : Nat) (value : α) : ScratchPool α := ⟨Array.replicate (max size 1) ⟨value, false⟩⟩

def size (pool : ScratchPool α) : Nat := pool.slots.size

def isEmpty (pool : ScratchPool α) : Bool := pool.slots.isEmpty

def firstFree? (pool : ScratchPool α) : Option (Nat × α) :=
  match pool.slots.findIdx? (!·.busy) with
  | none => none
  | some i => pool.slots[i]?.map fun slot => (i, slot.value)

def setSlot (pool : ScratchPool α) (i : Nat) (slot : Slot α) : ScratchPool α :=
  ⟨pool.slots.setIfInBounds i slot⟩

/-- Runs `use` on the value of the first free slot and on the pool in which that slot is busy;
afterwards the slot is free again and holds the new value. -/
def borrow (pool : ScratchPool α)
    (use : α → ScratchPool α → Except Fault (α × ScratchPool α × β)) :
    Except Fault (ScratchPool α × β) :=
  match pool.firstFree? with
  | none => .error .blocked
  | some (i, value) =>
    match use value (pool.setSlot i ⟨value, true⟩) with
    | .error e => .error e
    | .ok (value', pool', b) => .ok (pool'.setSlot i ⟨value', false⟩, b)

/-- Uses the pool `depth` levels deep. Level `l` applies `update l` to the value of its slot before
it goes deeper; the answers are the updated values, outermost first. -/
def nested (update : Nat → α → α) : (depth level : Nat) → ScratchPool α →
    Except Fault (ScratchPool α × List α)
  | 0, _, pool => .ok (pool, [])
  | depth + 1, level, pool =>
    pool.borrow fun value busy =>
      match nested update depth (level + 1) busy with
      | .error e => .error e
      | .ok (busy', inner) => .ok (update level value, busy', update level value :: inner)

end ScratchPool

end Timbre
