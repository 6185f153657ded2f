import Timbre.Kernel.Padding
import Timbre.Kernel.Spectrum

/-! # Autocorrelation

The correlation of a signal of `N` samples with itself at all lags from `-(N - 1)` to `N - 1`. The
signal is padded with zeros to a power of two that no lag wraps around in, its power spectrum is
taken, and that is transformed once more: a power spectrum is real and even, so the transform is its
own inverse up to the length.
-/
namespace Timbre.Autocorrelation

variable {α β : Type}

def fill [Zero β] (widen : α → β) (buffer : Array (Bin β)) (xs : Array α) : Array (Bin β) :=
  Array.ofFn fun i : Fin buffer.size => .ofReal ((xs[i.val]?.map widen).getD 0)

/-- The value at output position `index`, which stands for the lag `index - (size - 1)`. -/
def valueAt [Mul β] (narrow : β → α) (correlation : Array (Bin β)) (scale : β) (size index : Nat) :
    Except Fault α := do
  let center ← Checked.sub size 1
  let z ← Checked.get correlation (if index ≤ center then center - index else index - center)
  return narrow (z.re * scale)

def correlate [Zero β] [One β] [Add β] [Mul β] [Div β] [NatCast β] (widen : α → β)
    (narrow : β → α) (plan : Plan β) (xs out : Array α) : Except Fault (Array α × Plan β) :=
  plan.run fun buffer => do
    let power := (plan.transform (fill widen buffer xs)).map fun z => Bin.ofReal z.normSq
    let correlation := plan.transform power
    let scale : β := 1 / (buffer.size : β)
    let values ← (Array.range out.size).mapM (valueAt narrow correlation scale xs.size)
    return (correlation, values)

def kernel : Kernel where
  name := "Autocorrelation"
  description := "Find the cross-correlation of a signal with itself."
  parallel := true
  parameters := []
  input := Signal
  output := Signal
  Settings := Unit
  Shape := Unit
  Plan := Option (Plan Float)
  settings := ()
  shape := ()
  plan := none
  set := noParameters
  accept _ shape input _ count :=
    if input.size = 0 then { shape, answer := .error (input.refuse .emptySignal) }
    else match Checked.sub (input.size * 2) 1 with
      | .error e => { shape, answer := .error (.fault "Autocorrelation" e) }
      | .ok size => { shape, answer := .ok (input.withSize size, count) }
  prepare _ _ _ _ output workers :=
    .ok (some (.ofLength (Fourier.transform .forward) (Padding.paddedSize output.size) workers))
  work := Spectrum.planned (k := Signal) "Autocorrelation"
    (correlate Single.toDouble Single.ofDouble)

end Timbre.Autocorrelation
