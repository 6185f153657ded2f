import Timbre.Buffers
import Timbre.Number.Scalar
import Timbre.Samples
import Timbre.Warning

/-! # Kernels

A kernel turns elements of one kind into elements of another. What it remembers has three parts: its
settings, which are the values of its parameters; its shape, which accepting an input format fixes;
and its plan, which is computed once before it works and holds its scratch values. Each part is a
function of what it is made from, so that whether a plan is up to date is a statement about values.
-/
namespace Timbre

/-- What accepting an input format leaves: the shape, also of a refusal; the output format and the
number of output elements, or why the format is refused; and warnings. -/
structure Acceptance (Shape : Type) (k : Kind) where
  shape : Shape
  answer : Except Error (Format k × Nat)
  warnings : List Warning := []

/-- What work leaves: the output, the plan with its scratch values, and warnings. -/
structure Written (Out Plan : Type) where
  output : Out
  plan : Plan
  warnings : List Warning := []

/-- Work is done element by element, or on all elements at once where their number changes. The
last argument is the output as it was before; what is not written stays. -/
inductive Work (Settings Shape Plan In Out : Type)
  | perElement (run : Settings → Shape → Plan → In → Out → Except Fault (Written Out Plan))
  | wholeBatch
    (run : Settings → Shape → Plan → Array In → Array Out → Except Fault (Written (Array Out) Plan))

structure Kernel where
  name : String
  description : String
  /-- Elements may be worked on at the same time. -/
  parallel : Bool
  parameters : List ParameterSpec
  input : Kind
  output : Kind
  Settings : Type
  Shape : Type
  Plan : Type
  settings : Settings
  shape : Shape
  plan : Plan
  /-- The settings with one parameter changed. -/
  set : Settings → String → List Char → Except ParameterError Settings
  /-- Takes the input format, the output format with the rate of the input, and the number of input
  elements. -/
  accept : Settings → Shape → Format input → Format output → Nat → Acceptance Shape output
  /-- Takes both formats and the number of workers. -/
  prepare : Settings → Shape → Plan → Format input → Format output → Nat → Except Error Plan
  work : Work Settings Shape Plan input.Element output.Element

def noParameters {Settings : Type} (_ : Settings) (_ : String) (_ : List Char) :
    Except ParameterError Settings := .error .unknown

def noPlan {Settings Shape Plan : Type} {i o : Kind} (_ : Settings) (_ : Shape) (plan : Plan)
    (_ : Format i) (_ : Format o) (_ : Nat) : Except Error Plan := .ok plan

def setting {α : Type} (read : Except ValueProblem α) : Except ParameterError α :=
  read.mapError .invalid

/-- Work without scratch values or warnings. -/
def plainWork {Settings Shape In Out : Type}
    (f : Settings → Shape → In → Out → Except Fault Out) : Work Settings Shape Unit In Out :=
  .perElement fun settings shape _ x out =>
    match f settings shape x out with
    | .ok out' => .ok ⟨out', (), []⟩
    | .error e => .error e

abbrev Signal : Kind := .array .single

def Format.refuse {k : Kind} (f : Format k) (refusal : Refusal) : Error :=
  .invalidFormat f.describe refusal

end Timbre
