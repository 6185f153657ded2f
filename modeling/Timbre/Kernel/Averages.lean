import Timbre.Kernel.Basic

/-! # Averages of a signal

The mean square of a signal, and its arithmetic and geometric means. The geometric mean takes the
root of the running product whenever the next factor would make it infinite.
-/
namespace Timbre.Averages

/-- The mean square; nothing has the mean square zero. -/
def intensity {α : Type} [Add α] [Mul α] [Div α] [Zero α] [NatCast α] (xs : Array α) : α :=
  if xs.isEmpty then 0 else Samples.energy xs / (xs.size : α)

def intensityKernel : Kernel where
  name := "Intensity"
  description := "Unnormalized sound intensity calculation."
  parallel := true
  parameters := []
  input := Signal
  output := .single .single
  Settings := Unit
  Shape := Unit
  Plan := Unit
  settings := ()
  shape := ()
  plan := ()
  set := noParameters
  accept _ shape _ output count := { shape, answer := .ok (output, count) }
  prepare := noPlan
  work := plainWork fun _ _ xs _ => .ok (intensity xs)

inductive MeanType
  | arithmetic
  | geometric
deriving DecidableEq, Repr

namespace MeanType

def choices : List (String × MeanType) := [("arithmetic", .arithmetic), ("geometric", .geometric)]

def place : MeanType → Fin 2
  | .arithmetic => 0
  | .geometric => 1

end MeanType

/-- A running product: the roots taken so far, and the product of the factors since. -/
structure Product where
  rooted : Single := 1
  pending : Single := 1

def Product.push (power : Single) (p : Product) (x : Single) : Product :=
  if (p.pending * x).isInf then ⟨p.rooted * p.pending.pow power, x⟩ else ⟨p.rooted, p.pending * x⟩

def geometricMean (xs : Array Single) : Single :=
  let power := 1 / (xs.size : Single)
  let p := xs.foldl (Product.push power) {}
  p.rooted * p.pending.pow power

/-- Every mean of nothing is zero. -/
def MeanType.compute (type : MeanType) (xs : Array Single) : Single :=
  if xs.isEmpty then 0
  else match type with
    | .arithmetic => Samples.sum xs / (xs.size : Single)
    | .geometric => geometricMean xs

/-- Adds a type at the end unless it is there already. -/
def addType (types : List MeanType) (type : MeanType) : List MeanType :=
  if type ∈ types then types else types ++ [type]

def readTypes (text : List Char) : Except ValueProblem (List MeanType) := do
  let types ← Parameter.readList (Parameter.readChoice MeanType.choices) text
  if types.isEmpty then .error .noTypes else return types.foldl addType []

def set (_ : List MeanType) (name : String) (text : List Char) :
    Except ParameterError (List MeanType) :=
  match name with
  | "types" => setting (readTypes text)
  | _ => .error .unknown

def means (types : List MeanType) (xs : Array Single) : Vector Single 2 :=
  types.foldl (fun out type => out.set type.place (type.compute xs)) (Vector.replicate 2 0)

def meanKernel : Kernel where
  name := "Mean"
  description := "Calculates the mean of the signal."
  parallel := true
  parameters :=
    [⟨"types", "Means to calculate, separated by spaces: arithmetic, geometric.", "arithmetic"⟩]
  input := Signal
  output := .single (.tuple 2)
  Settings := List MeanType
  Shape := Unit
  Plan := Unit
  settings := [.arithmetic]
  shape := ()
  plan := ()
  set := set
  accept _ shape _ output count := { shape, answer := .ok (output, count) }
  prepare := noPlan
  work := plainWork fun types _ xs _ => .ok (means types xs)

end Timbre.Averages
