import Timbre.Kernel.Autocorrelation
import Timbre.Kernel.Averages
import Timbre.Kernel.Conversion
import Timbre.Kernel.Counting
import Timbre.Kernel.Difference
import Timbre.Kernel.FilterBank
import Timbre.Kernel.Framing
import Timbre.Kernel.Padding
import Timbre.Kernel.Power
import Timbre.Kernel.Spectrum
import Timbre.Kernel.Subbands
import Timbre.Kernel.Tempo
import Timbre.Stage

/-! # The registry of transforms

A registry finds kernels by name. A transform is created from a name and parameter values; the
values are applied in the order of the parameters' names.
-/
namespace Timbre

/-- Kernels, no two of one name. -/
structure Registry where
  kernels : List Kernel

namespace Registry

def empty : Registry := ⟨[]⟩

def find? (r : Registry) (name : String) : Option Kernel := r.kernels.find? (·.name == name)

def contains (r : Registry) (name : String) : Bool := (r.find? name).isSome

/-- Adds a kernel in the place of one of the same name, which is worth a warning. -/
def register (r : Registry) (k : Kernel) : Registry × List Warning :=
  (⟨r.kernels.filter (·.name != k.name) ++ [k]⟩,
    if r.contains k.name then [.replaced k.name] else [])

def registerAll (r : Registry) (ks : List Kernel) : Registry × List Warning :=
  ks.foldl (fun acc k =>
    let (r', warnings) := acc.1.register k
    (r', acc.2 ++ warnings)) (r, [])

def size (r : Registry) : Nat := r.kernels.length

def names (r : Registry) : List String := (r.kernels.map (·.name)).mergeSort (· ≤ ·)

def lookUp (r : Registry) (name : String) : Except Error Kernel :=
  match r.find? name with
  | some k => .ok k
  | none => .error (.unknownTransform name)

def create (r : Registry) (name : String) (params : Params) : Except Error Transform :=
  match r.lookUp name with
  | .error e => .error e
  | .ok k => (Transform.new k).setParameters params.entries

def debugText (r : Registry) : String :=
  Text.showRecord "TransformRegistry" [("types", Text.showList (r.names.map Text.quote))]

end Registry

/-- The kernel's name, description, formats and parameters, one to a line. -/
def Kernel.summary (k : Kernel) : String :=
  k.name ++ "\n  " ++ k.description ++ "\n  " ++ k.input.id.name ++ " -> " ++ k.output.id.name ++
    "\n" ++ (if k.parallel then "  parallel\n" else "") ++
    String.join (k.parameters.map fun p =>
      "  " ++ p.name ++ " = " ++ p.default ++ ": " ++ p.description ++ "\n")

/-- The transforms that come with the library. -/
def builtinKernels : List Kernel :=
  [Conversion.kernel, Framing.kernel, Padding.kernel, Spectrum.forwardKernel,
    Spectrum.inverseKernel, Power.powerKernel, Power.magnitudeKernel, Averages.intensityKernel,
    Averages.meanKernel, Difference.kernel, FilterBank.kernel, Subbands.kernel,
    Autocorrelation.kernel, Tempo.kernel]

def Registry.builtin : Registry := ⟨builtinKernels⟩

end Timbre
