import Timbre.Config
import Timbre.Pipeline.Features
import Timbre.Pipeline.Schedule

/-! # Pipelines

A pipeline is built from a builder: the stages are scheduled, the lifetime tree is solved by first
fit under the memory limit, and every stage is prepared. A run takes a source collection that fits
the source format, executes the steps in order, drops outputs when they are released and keeps those
that are features. A run leaves nothing behind in the pipeline: no stage reads scratch values that
it has not written for the element at hand.
-/
namespace Timbre

structure Pipeline where
  source : AnyFormat
  sourceCount : Nat
  steps : List Step
  tree : Memory.Tree
  layout : Memory.Layout
  workers : Nat
  validateOutputs : Bool

namespace Builder

/-- Builds a pipeline. `write path text` writes a file; it takes the graph of the solved tree if the
configuration names a path. `available` is the number of workers if the configuration has none. -/
def build (b : Builder) (config : Config) (available : Nat)
    (write : (path text : String) → Except Error Unit) : Except Error Pipeline :=
  match config.validate with
  | .error e => .error e
  | .ok () =>
    match b.breadthFirst with
    | .error e => .error e
    | .ok (tree, order) =>
      let solved := Memory.solve .firstFit config.memoryLimit tree
      match solved.answer with
      | .error e => .error e
      | .ok layout =>
        match config.dumpGraph.elim (.ok ()) (write · solved.state.dot) with
        | .error e => .error e
        | .ok () =>
          let workers := config.workers available
          match b.makeSteps workers order order with
          | .error e => .error e
          | .ok steps => .ok
            { source := b.source, sourceCount := b.sourceCount,
              steps := Step.scheduleReleases steps, tree := solved.state, layout := layout,
              workers := workers, validateOutputs := config.validateOutputs }

end Builder

structure StageInfo where
  name : String
  output : String
  count : Nat
  size : Nat
  address : Option Nat
  features : List String
deriving DecidableEq, Repr

namespace Pipeline

def stages (p : Pipeline) : List StageInfo :=
  p.steps.map fun s =>
    let node := p.tree.nodes[s.node]?
    { name := s.name, output := s.transform.outputFormat.format.describe,
      count := s.transform.outputCount, size := (node.map (·.size)).getD 0,
      address := node.bind (·.address), features := s.features }

def featureNames (p : Pipeline) : List String := (p.steps.flatMap (·.features)).mergeSort (· ≤ ·)

/-- What a source collection has to be: of the source format, with elements of the same footprint,
of the right number, and each of them valid. -/
def checkSource (p : Pipeline) (source : AnyBuffers) : Except Error Unit :=
  if !p.source.id.sameAs source.id then .error (.mismatch p.source.id source.id)
  else if source.buffers.format.bytes ≠ p.source.format.bytes then
    .error (source.buffers.format.refuse (.builtFor p.source.format.describe))
  else if source.count ≠ p.sourceCount then
    .error (.bufferCountMismatch p.sourceCount source.count)
  else p.source.format.validate source

/-- A run under way: the outputs that are held, by position, and the warnings so far. -/
structure Run where
  held : Array (Option AnyBuffers)
  warnings : List Warning

def start (p : Pipeline) : Run := ⟨Array.replicate p.steps.length none, []⟩

def Run.input (r : Run) (source : AnyBuffers) (s : Step) : Except Error AnyBuffers :=
  match s.input with
  | none => .ok source
  | some position =>
    match r.held[position]? with
    | some (some b) => .ok b
    | _ => .error (.unknownStage position)

def outputWarning (p : Pipeline) (s : Step) (position : Nat) (output : AnyBuffers) :
    List Warning :=
  if p.validateOutputs then
    match s.transform.outputFormat.format.validate output with
    | .error e => [.invalidOutput s.name position e]
    | .ok () => []
  else []

/-- The outputs held after the one at `position` is stored and the released ones are dropped. -/
def Run.store (r : Run) (s : Step) (position : Nat) (output : AnyBuffers) :
    Array (Option AnyBuffers) :=
  s.release.foldl (fun held i => held.setIfInBounds i none)
    (r.held.setIfInBounds position (some output))

/-- Executes the step at a position. The warnings are those up to the end or to the failure. -/
def runStep (p : Pipeline) (source : AnyBuffers) (r : Run) (s : Step) (position : Nat) :
    Except (Error × List Warning) Run :=
  match r.input source s with
  | .error e => .error (e, r.warnings)
  | .ok input =>
    match s.transform.execute input s.transform.freshOutputs with
    | .error e => .error (e, r.warnings)
    | .ok x =>
      .ok ⟨r.store s position x.outputs,
        r.warnings ++ x.warnings ++ p.outputWarning s position x.outputs⟩

def runSteps (p : Pipeline) (source : AnyBuffers) : Run → (position : Nat) → List Step →
    Except (Error × List Warning) Run
  | r, _, [] => .ok r
  | r, position, s :: steps =>
    match p.runStep source r s position with
    | .error e => .error e
    | .ok r' => p.runSteps source r' (position + 1) steps

def collect (p : Pipeline) (r : Run) : Features :=
  p.steps.zipIdx.foldl (fun features sp =>
    if sp.1.features.isEmpty then features
    else match r.held[sp.2]? with
      | some (some b) => features.insert sp.1.features b
      | _ => features) .empty

def run (p : Pipeline) (source : AnyBuffers) : Outcome Unit Features :=
  match p.checkSource source with
  | .error e => ⟨(), .error e, []⟩
  | .ok () =>
    match p.runSteps source p.start 0 p.steps with
    | .error (e, warnings) => ⟨(), .error e, warnings⟩
    | .ok r => ⟨(), .ok (p.collect r), r.warnings⟩

def debugText (p : Pipeline) : String :=
  Text.showRecord "Pipeline"
    [("source", Text.quote p.source.format.describe), ("source_count", toString p.sourceCount),
      ("stages", Text.showList (p.steps.map fun s => Text.quote s.name)),
      ("layout", Text.showRecord "MemoryLayout"
        [("footprint", toString p.layout.footprint), ("unshared", toString p.layout.unshared),
          ("strategy", Text.quote p.layout.strategy)]),
      ("workers", toString p.workers)]

end Pipeline

end Timbre
