import Timbre.Kernel.Basic

/-! # Padding with zeros

A signal is continued with zeros up to the next power of two.
-/
namespace Timbre.Padding

/-- The least power of two that is not below `n`. -/
def paddedSize (n : Nat) : Nat := if n ≤ 1 then 1 else 1 <<< ((n - 1).log2 + 1)

/-- The signal over the front of the output and zeros over the rest. -/
def pad {α : Type} [Zero α] (xs out : Array α) : Except Fault (Array α) := do
  let rest ← Checked.slice out xs.size out.size
  return xs ++ rest.map fun _ => 0

def kernel : Kernel where
  name := "ZeroPadding"
  description := "Pads the signal with zeros so that its length becomes a power of two."
  parallel := true
  parameters := []
  input := Signal
  output := Signal
  Settings := Unit
  Shape := Unit
  Plan := Unit
  settings := ()
  shape := ()
  plan := ()
  set := noParameters
  accept _ shape input _ count :=
    { shape, answer := .ok (input.withSize (paddedSize input.size), count) }
  prepare := noPlan
  work := plainWork fun _ _ xs out => pad xs out

end Timbre.Padding
