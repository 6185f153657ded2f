import Timbre.Kernel.Basic

/-! # Power and magnitude of a spectrum

Each pair of values is a complex number; it gives its squared absolute value or its absolute value.
An odd value at the end is left out, with a warning.
-/
namespace Timbre.Power

variable {α : Type}

def powers [Add α] [Mul α] (xs out : Array α) : Array α :=
  Samples.overwrite out ((Samples.pairs xs).map fun p => p.1 * p.1 + p.2 * p.2)

def magnitudes (hypot : α → α → α) (xs out : Array α) : Array α :=
  Samples.overwrite out ((Samples.pairs xs).map fun p => hypot p.1 p.2)

def accept (name : String) (input : Format Signal) (count : Nat) : Acceptance Unit Signal where
  shape := ()
  answer := .ok (input.withSize (input.size / 2), count)
  warnings := if input.size % 2 ≠ 0 then [.oddSize name input.describe] else []

def powerKernel : Kernel where
  name := "Energy"
  description := "Calculates the squared magnitude of each complex number."
  parallel := true
  parameters := []
  input := Signal
  output := Signal
  Settings := Unit
  Shape := Unit
  Plan := Unit
  settings := ()
  shape := ()
  plan := ()
  set := noParameters
  accept _ _ input _ count := accept "Energy" input count
  prepare := noPlan
  work := plainWork fun _ _ xs out => .ok (powers xs out)

def magnitudeKernel : Kernel where
  name := "Magnitude"
  description := "Calculates the magnitude of each complex number."
  parallel := true
  parameters := []
  input := Signal
  output := Signal
  Settings := Unit
  Shape := Unit
  Plan := Unit
  settings := ()
  shape := ()
  plan := ()
  set := noParameters
  accept _ _ input _ count := accept "Magnitude" input count
  prepare := noPlan
  work := plainWork fun _ _ xs out => .ok (magnitudes Single.hypot xs out)

end Timbre.Power
