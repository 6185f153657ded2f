import Timbre.Registry

/-! # Assembling a pipeline

A builder holds a tree of stages below a source. Every edge is checked when it is made: the child
has to accept the format and the number of elements of its parent. A chain is a list of links, each
a transform's name with parameter values; a chain added from the source runs along the stages that
are there already for the same links and adds the rest. A feature is a name for the output of a
stage.
-/
namespace Timbre

inductive StageId
  | source
  /-- The stage of this index, counted from zero. -/
  | stage (index : Nat)
deriving DecidableEq, Repr

namespace StageId

/-- Stages are numbered from one on; the source has the number zero. -/
def ofNumber : Nat → StageId
  | 0 => .source
  | n + 1 => .stage n

def number : StageId → Nat
  | .source => 0
  | .stage i => i + 1

def text : StageId → String
  | .source => "source"
  | .stage i => "stage " ++ toString (i + 1)

@[simp] theorem number_ofNumber (n : Nat) : (ofNumber n).number = n := by cases n <;> rfl

@[simp] theorem ofNumber_number (s : StageId) : ofNumber s.number = s := by cases s <;> rfl

end StageId

structure Link where
  name : String
  params : Params
deriving DecidableEq

structure Entry where
  link : Link
  transform : Transform
  parent : StageId
  /-- The indices of the stages that read from this one, in the order in which they were added. -/
  children : List Nat := []
  features : List String := []

structure Builder where
  registry : Registry
  source : AnyFormat
  sourceCount : Nat
  stages : Array Entry := #[]
  /-- The indices of the stages that read from the source. -/
  sourceChildren : List Nat := []

namespace Builder

def size (b : Builder) : Nat := b.stages.size

def entry (b : Builder) (id : StageId) : Except Error Entry :=
  match id with
  | .source => .error (.unknownStage 0)
  | .stage i =>
    match b.stages[i]? with
    | some e => .ok e
    | none => .error (.unknownStage (i + 1))

def outputOf (b : Builder) (id : StageId) : Except Error (AnyFormat × Nat) :=
  match id with
  | .source => .ok (b.source, b.sourceCount)
  | .stage i =>
    match b.entry (.stage i) with
    | .ok e => .ok (e.transform.outputFormat, e.transform.outputCount)
    | .error err => .error err

def children (b : Builder) (id : StageId) : Except Error (List Nat) :=
  match id with
  | .source => .ok b.sourceChildren
  | .stage i =>
    match b.entry (.stage i) with
    | .ok e => .ok e.children
    | .error err => .error err

def modify (b : Builder) (i : Nat) (f : Entry → Entry) : Builder :=
  { b with stages := b.stages.modify i f }

def linkChild (b : Builder) (parent : StageId) (child : Nat) : Builder :=
  match parent with
  | .source => { b with sourceChildren := b.sourceChildren ++ [child] }
  | .stage i => b.modify i fun e => { e with children := e.children ++ [child] }

/-- A new stage below a parent, ready to be written down. -/
def makeEntry (b : Builder) (parent : StageId) (link : Link) : Except Error Entry × List Warning :=
  match b.registry.create link.name link.params with
  | .error e => (.error e, [])
  | .ok transform =>
    match b.outputOf parent with
    | .error e => (.error e, [])
    | .ok (format, count) =>
      let o := transform.accept format count
      match o.answer with
      | .error e => (.error e, o.warnings)
      | .ok _ => (.ok { link := link, transform := o.state, parent := parent }, o.warnings)

/-- Adds a stage below a parent; where that fails the builder stays as it is. -/
def add (b : Builder) (parent : StageId) (link : Link) : Outcome Builder StageId :=
  match b.makeEntry parent link with
  | (.error e, warnings) => ⟨b, .error e, warnings⟩
  | (.ok entry, warnings) =>
    ⟨({ b with stages := b.stages.push entry }).linkChild parent b.size, .ok (.stage b.size),
      warnings⟩

def isFor (b : Builder) (link : Link) (i : Nat) : Bool :=
  match b.stages[i]? with
  | some e => e.link = link
  | none => false

def findChild? (b : Builder) (parent : StageId) (link : Link) : Option StageId :=
  match b.children parent with
  | .error _ => none
  | .ok ids => (ids.find? (b.isFor link)).map .stage

/-- Follows one link, adding a stage where there is none for it. -/
def follow (b : Builder) (parent : StageId) (link : Link) : Outcome Builder StageId :=
  match b.findChild? parent link with
  | some id => ⟨b, .ok id, []⟩
  | none => b.add parent link

/-- Follows links one after the other, up to the first that fails. -/
def addChainFrom (b : Builder) (current : StageId) : List Link → Outcome Builder StageId
  | [] => ⟨b, .ok current, []⟩
  | link :: chain =>
    let o := b.follow current link
    match o.answer with
    | .error e => ⟨o.state, .error e, o.warnings⟩
    | .ok next =>
      let rest := o.state.addChainFrom next chain
      ⟨rest.state, rest.answer, o.warnings ++ rest.warnings⟩

/-- Follows a chain from the source; the answer is its last stage. -/
def addChain (b : Builder) (chain : List Link) : Outcome Builder StageId :=
  b.addChainFrom .source chain

def hasFeature (b : Builder) (name : String) : Bool :=
  b.stages.any fun e => e.features.contains name

/-- Keeps the output of a stage under a name that is not in use. -/
def expose (b : Builder) (name : String) (id : StageId) : Outcome Builder Unit :=
  if b.hasFeature name then ⟨b, .error (.duplicateFeature name), []⟩
  else match id, b.entry id with
    | .stage i, .ok _ =>
      ⟨b.modify i fun e => { e with features := e.features ++ [name] }, .ok (), []⟩
    | _, .error e => ⟨b, .error e, []⟩
    | .source, .ok _ => ⟨b, .error (.unknownStage 0), []⟩

def addFeature (b : Builder) (name : String) (chain : List Link) : Outcome Builder StageId :=
  if chain.isEmpty then ⟨b, .error (.invalidConfig (.emptyChain name)), []⟩
  else if b.hasFeature name then ⟨b, .error (.duplicateFeature name), []⟩
  else
    let o := b.addChain chain
    match o.answer with
    | .error e => ⟨o.state, .error e, o.warnings⟩
    | .ok id =>
      let x := o.state.expose name id
      ⟨x.state, x.answer.map fun () => id, o.warnings ++ x.warnings⟩

def debugText (b : Builder) : String :=
  Text.showRecord "PipelineBuilder"
    [("source", Text.quote b.source.format.describe), ("source_count", toString b.sourceCount),
      ("stages", Text.showList (b.stages.toList.map fun e => Text.quote e.link.name))]

end Builder

end Timbre
