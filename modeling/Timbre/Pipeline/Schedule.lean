import Timbre.Memory.Dot
import Timbre.Memory.Layout
import Timbre.Pipeline.Builder

/-! # Scheduling

Stages run in breadth-first order, so that parents come first. Each step knows the position of the
step it reads from and the steps whose outputs it releases: an output without a feature is released
by the last step that reads it. The lifetime tree has a node per stage below an empty root that
stands for the source.
-/
namespace Timbre

/-- A stage that is up to be scheduled: its index, and the tree node of its parent. -/
structure Pending where
  stage : Nat
  parentNode : Nat
deriving DecidableEq, Repr

structure Step where
  name : String
  transform : Transform
  node : Nat
  /-- The position of the step it reads from; none reads the source. -/
  input : Option Nat
  features : List String
  /-- The positions of the steps whose outputs are dropped after this one. -/
  release : List Nat := []

namespace Builder

def blockSize (t : Transform) : Nat := t.outputFormat.format.paddedBytes * t.outputCount

def addNode (tree : Memory.Tree) (p : Pending) (e : Entry) : Except Error (Memory.Tree × Nat) :=
  match tree.addChild p.parentNode (blockSize e.transform) (p.stage + 1) with
  | .error err => .error err
  | .ok (tree, node) =>
    (tree.edit node fun b =>
      { b with retained := !e.features.isEmpty, label := some e.link.name }).map (·, node)

/-- Takes stages off the front of a queue and appends their children at its end. -/
def walk (b : Builder) : (steps : Nat) → List Pending → Memory.Tree → List (Nat × Nat) →
    Except Error (Memory.Tree × List (Nat × Nat))
  | 0, _, tree, order => .ok (tree, order)
  | _, [], tree, order => .ok (tree, order)
  | steps + 1, p :: queue, tree, order =>
    match b.entry (.stage p.stage) with
    | .error e => .error e
    | .ok e =>
      match addNode tree p e with
      | .error err => .error err
      | .ok (tree, node) =>
        walk b steps (queue ++ e.children.map (⟨·, node⟩)) tree (order ++ [(p.stage, node)])

/-- The lifetime tree, and each stage with its node, in breadth-first order. Every stage is taken
off the queue once. -/
def breadthFirst (b : Builder) : Except Error (Memory.Tree × List (Nat × Nat)) :=
  b.walk b.size (b.sourceChildren.map (⟨·, 0⟩)) (.ofRoot 0 0) []

/-- The position of the step that a stage reads from. -/
def inputOf (order : List (Nat × Nat)) : StageId → Except Error (Option Nat)
  | .source => .ok none
  | .stage i =>
    match order.findIdx? fun p => p.1 == i with
    | some position => .ok (some position)
    | none => .error (.unknownStage (i + 1))

def makeStep (b : Builder) (workers : Nat) (order : List (Nat × Nat)) (p : Nat × Nat) :
    Except Error Step :=
  match b.entry (.stage p.1) with
  | .error e => .error e
  | .ok e =>
    match e.transform.prepare workers with
    | .error err => .error err
    | .ok transform =>
      match inputOf order e.parent with
      | .error err => .error err
      | .ok input => .ok
        { name := e.link.name, transform := transform, node := p.2, input := input,
          features := e.features }

def makeSteps (b : Builder) (workers : Nat) (order : List (Nat × Nat)) :
    List (Nat × Nat) → Except Error (List Step)
  | [] => .ok []
  | p :: ps =>
    match b.makeStep workers order p with
    | .error e => .error e
    | .ok step =>
      match b.makeSteps workers order ps with
      | .error e => .error e
      | .ok steps => .ok (step :: steps)

end Builder

namespace Step

def lastReader? (steps : List Step) (position : Nat) : Option Nat :=
  (steps.zipIdx.filter fun p => p.1.input = some position).getLast?.map (·.2)

/-- The steps that the step at a position releases, in order. -/
def releasedBy (steps : List Step) (position : Nat) : List Nat :=
  (steps.zipIdx.filter fun p =>
    p.1.features.isEmpty && lastReader? steps p.2 == some position).map (·.2)

def scheduleReleases (steps : List Step) : List Step :=
  steps.mapIdx fun i s => { s with release := releasedBy steps i }

end Step

end Timbre
