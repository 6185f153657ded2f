import Timbre.Kernel.Basic

/-! # Counting buffers

Any buffers are taken and only counted; the count goes to the one output.
-/
namespace Timbre.Counting

def kernel : Kernel where
  name := "Count"
  description := "Number of buffers of any format."
  parallel := false
  parameters := []
  input := .identity
  output := .single .single
  Settings := Unit
  Shape := Unit
  Plan := Unit
  settings := ()
  shape := ()
  plan := ()
  set := noParameters
  accept _ shape _ output _ := { shape, answer := .ok (output, 1) }
  prepare := noPlan
  work := .wholeBatch fun _ _ _ inputs outs =>
    .ok ⟨Samples.overwrite outs #[(inputs.size : Single)], (), []⟩

end Timbre.Counting
