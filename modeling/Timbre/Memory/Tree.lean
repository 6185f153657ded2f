import Timbre.Error

/-! # Lifetime trees

A node stands for the buffers that one stage writes; its children are the stages that read them. The
nodes are numbered in the order in which they were added, from the root on. The order of execution
is a list of nodes of its own, which nothing forces to be sensible; `Liveness` tells whether it is.
-/
namespace Timbre.Memory

structure Block where
  /-- The offset of the memory, once it is placed. -/
  address : Option Nat := none
  /-- Bytes; a node of size zero takes no memory. -/
  size : Nat
  /-- Whose memory it is; different nodes have different items. -/
  item : Nat
  /-- A result, kept to the end of the run. -/
  retained : Bool := false
  label : Option String := none
deriving DecidableEq, Repr

/-- The addresses from the first one up to the end, if the block is placed and the end is an
address. -/
def Block.range? (b : Block) : Option (Nat × Nat) :=
  match b.address with
  | none => none
  | some start => if start + b.size ≤ maxSize then some (start, start + b.size) else none

structure Node extends Block where
  parent : Option Nat
  children : List Nat
deriving DecidableEq, Repr

structure Tree where
  nodes : Array Node
  order : List Nat
deriving DecidableEq, Repr

namespace Tree

def ofRoot (size item : Nat) : Tree :=
  ⟨#[{ size := size, item := item, parent := none, children := [] }], [0]⟩

def size (t : Tree) : Nat := t.nodes.size

def node (t : Tree) (i : Nat) : Except Error Node :=
  match t.nodes[i]? with
  | some n => .ok n
  | none => .error (.unknownNode i)

/-- Changes the memory of a node; its place in the tree stays. -/
def edit (t : Tree) (i : Nat) (f : Block → Block) : Except Error Tree :=
  match t.nodes[i]? with
  | some n =>
    .ok { t with nodes := t.nodes.setIfInBounds i { n with toBlock := f n.toBlock } }
  | none => .error (.unknownNode i)

/-- Adds a node below `parent`, at the end of the order. -/
def addChild (t : Tree) (parent size item : Nat) : Except Error (Tree × Nat) :=
  match t.nodes[parent]? with
  | none => .error (.unknownNode parent)
  | some p =>
    let i := t.size
    let linked := t.nodes.setIfInBounds parent { p with children := p.children ++ [i] }
    .ok (⟨linked.push { size := size, item := item, parent := some parent, children := [] },
      t.order ++ [i]⟩, i)

def setOrder (t : Tree) (order : List Nat) : Tree := { t with order := order }

def parent? (t : Tree) (i : Nat) : Option Nat := t.nodes[i]?.bind (·.parent)

def sizeOf (t : Tree) (i : Nat) : Nat := (t.nodes[i]?.map (·.size)).getD 0

def addresses (t : Tree) : List (Option Nat) := t.nodes.toList.map (·.address)

def clearAddresses (t : Tree) : Tree :=
  { t with nodes := t.nodes.map fun n => { n with address := none } }

def assign (t : Tree) (addresses : List Nat) : Tree :=
  { t with nodes := t.nodes.mapIdx fun i n => { n with address := addresses[i]? } }

def items (t : Tree) : List Nat := t.nodes.toList.map (·.item)

/-- No two nodes share an item. -/
def ItemsDistinct (t : Tree) : Prop := t.items.Nodup

instance (t : Tree) : Decidable t.ItemsDistinct := inferInstanceAs (Decidable (List.Nodup _))

end Tree

end Timbre.Memory
