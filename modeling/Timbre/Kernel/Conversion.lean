import Timbre.Kernel.Basic

/-! # Whole numbers to single precision

Samples keep their value; nothing is scaled.
-/
namespace Timbre.Conversion

def convert (xs : Array Int16) (out : Array Single) : Array Single :=
  Samples.overwrite out (xs.map Single.ofInt16)

def kernel : Kernel where
  name := "Int16ToFloat"
  description := "Converts 16-bit integer samples to floats."
  parallel := true
  parameters := []
  input := .array .int16
  output := Signal
  Settings := Unit
  Shape := Unit
  Plan := Unit
  settings := ()
  shape := ()
  plan := ()
  set := noParameters
  accept _ shape input output count :=
    { shape, answer := .ok (output.withSize input.size, count) }
  prepare := noPlan
  work := plainWork fun _ _ xs out => .ok (convert xs out)

end Timbre.Conversion
