import Timbre.Kernel.Basic

/-! # Stages

A stage is a kernel with its formats. It accepts the format of whatever comes before it, is
prepared, and then works on collections whose kind is only known when they arrive. Accepting a
format makes it unprepared again; changing a parameter does not. A call that fails leaves what it
had done before it failed: an accepted input format stays, and the output format has its rate, when
the kernel refuses the shape.
-/
namespace Timbre

structure Stage (k : Kernel) where
  settings : k.Settings
  shape : k.Shape
  plan : k.Plan
  input : Format k.input
  output : Format k.output
  /-- The number of output elements. -/
  count : Nat
  prepared : Bool

namespace Stage

variable {k : Kernel}

def new (k : Kernel) : Stage k where
  settings := k.settings
  shape := k.shape
  plan := k.plan
  input := .initial k.input
  output := .initial k.output
  count := 0
  prepared := false

def setParameter (s : Stage k) (name value : String) : Except Error (Stage k) :=
  match k.set s.settings name value.toList with
  | .ok settings => .ok { s with settings := settings }
  | .error .unknown => .error (.unknownParameter k.name name)
  | .error (.invalid problem) => .error (.invalidParameter k.name name value problem)

/-- The input format that a format from before amounts to: the format itself where it is of the
input's kind, and only its rate where it matches through the wildcard. -/
def takeInput (s : Stage k) (format : AnyFormat) : Except Error (Format k.input) :=
  if k.input.id.sameAs format.id then
    match format.as? k.input with
    | some f => .ok f
    | none => s.input.takeSource format.format
  else .error (.mismatch k.input.id format.id)

/-- Accepts the format and the number of elements from before; the answer is the number of output
elements. -/
def accept (s : Stage k) (format : AnyFormat) (count : Nat) : Outcome (Stage k) Nat :=
  match s.takeInput format with
  | .error e => ⟨s, .error e, []⟩
  | .ok input =>
    let s₁ := { s with input := input, prepared := false }
    match s.output.takeSource input with
    | .error e => ⟨s₁, .error e, []⟩
    | .ok output =>
      let a := k.accept s.settings s.shape input output count
      match a.answer with
      | .error e => ⟨{ s₁ with output := output, shape := a.shape }, .error e, a.warnings⟩
      | .ok (output', count') =>
        ⟨{ s₁ with output := output', shape := a.shape, count := count' }, .ok count', a.warnings⟩

def prepare (s : Stage k) (workers : Nat) : Except Error (Stage k) :=
  match k.prepare s.settings s.shape s.plan s.input s.output (max workers 1) with
  | .error e => .error e
  | .ok plan => .ok { s with plan := plan, prepared := true }

def freshOutputs (s : Stage k) : Buffers k.output := .fresh s.output s.count

/-- The collection that the kernel sees. A kernel that takes anything sees only how many elements
arrived. -/
def takeElements (s : Stage k) (inputs : AnyBuffers) : Except Error (Buffers k.input) :=
  if k.input.id.isIdentity then .ok (.fresh s.input inputs.count) else s.input.downcast inputs

/-- The plan and the warnings that go from element to element. -/
structure Progress (Plan : Type) where
  plan : Plan
  warnings : List Warning

/-- Work element by element. -/
def workEach {In Out Plan : Type} (run : Plan → In → Out → Except Fault (Written Out Plan))
    (plan : Plan) (inputs : Array In) (outputs : Array Out) :
    Except Fault (Written (Array Out) Plan) :=
  match Samples.zipWithM (fun (p : Progress Plan) x out =>
      match run p.plan x out with
      | .error e => .error e
      | .ok w => .ok (w.output, ⟨w.plan, p.warnings ++ w.warnings⟩))
    ⟨plan, []⟩ inputs.toList outputs.toList with
  | .error e => .error e
  | .ok (outs, p) => .ok ⟨outs.toArray, p.plan, p.warnings⟩

/-- What the kernel writes over the elements of a collection. -/
def work (s : Stage k) (inputs : Array k.input.Element) (outputs : Array k.output.Element) :
    Except Error (Written (Array k.output.Element) k.Plan) :=
  match k.work with
  | .perElement run =>
    if inputs.size = outputs.size then
      (workEach (run s.settings s.shape) s.plan inputs outputs).mapError (.fault k.name)
    else .error (.bufferCountMismatch inputs.size outputs.size)
  | .wholeBatch run =>
    (run s.settings s.shape s.plan inputs outputs).mapError (.fault k.name)

structure Execution (k : Kernel) where
  stage : Stage k
  outputs : Buffers k.output
  warnings : List Warning

/-- Works on a collection, over outputs of exactly the output's kind. -/
def execute (s : Stage k) (inputs outputs : AnyBuffers) : Except Error (Execution k) :=
  if !s.prepared then .error (.notInitialized k.name)
  else match s.takeElements inputs with
    | .error e => .error e
    | .ok ins =>
      match outputs.as? k.output with
      | none => .error (.mismatch k.output.id outputs.id)
      | some outs =>
        match s.work ins.elements outs.elements with
        | .error e => .error e
        | .ok w =>
          .ok ⟨{ s with plan := w.plan }, { outs with elements := w.output }, w.warnings⟩

end Stage

structure Transform where
  kernel : Kernel
  stage : Stage kernel

namespace Transform

def new (k : Kernel) : Transform := ⟨k, .new k⟩

def name (t : Transform) : String := t.kernel.name

def inputFormat (t : Transform) : AnyFormat := ⟨_, t.stage.input⟩

def outputFormat (t : Transform) : AnyFormat := ⟨_, t.stage.output⟩

def outputCount (t : Transform) : Nat := t.stage.count

def setParameter (t : Transform) (name value : String) : Except Error Transform :=
  match t.stage.setParameter name value with
  | .error e => .error e
  | .ok s => .ok ⟨t.kernel, s⟩

/-- Sets parameters one after the other, up to the first that is refused. -/
def setParameters (t : Transform) : List (String × String) → Except Error Transform
  | [] => .ok t
  | e :: es =>
    match t.setParameter e.1 e.2 with
    | .error err => .error err
    | .ok t' => t'.setParameters es

def accept (t : Transform) (format : AnyFormat) (count : Nat) : Outcome Transform Nat :=
  let o := t.stage.accept format count
  ⟨⟨t.kernel, o.state⟩, o.answer, o.warnings⟩

def prepare (t : Transform) (workers : Nat) : Except Error Transform :=
  match t.stage.prepare workers with
  | .error e => .error e
  | .ok s => .ok ⟨t.kernel, s⟩

def freshOutputs (t : Transform) : AnyBuffers := ⟨_, t.stage.freshOutputs⟩

structure Execution where
  transform : Transform
  outputs : AnyBuffers
  warnings : List Warning

def execute (t : Transform) (inputs outputs : AnyBuffers) : Except Error Execution :=
  match t.stage.execute inputs outputs with
  | .error e => .error e
  | .ok x => .ok ⟨⟨t.kernel, x.stage⟩, ⟨_, x.outputs⟩, x.warnings⟩

def debugText (t : Transform) : String :=
  Text.showRecord "Transform"
    [("name", Text.quote t.name), ("input", Text.quote t.stage.input.describe),
      ("output", Text.quote t.stage.output.describe)]

end Transform

end Timbre
