import Timbre.Fourier.Plan
import Timbre.Kernel.Basic

/-! # Spectra of real signals

The spectrum of a real signal of `N` samples, `N` even, has `N / 2 + 1` bins of its own; the others
are their conjugates. It is stored as `N + 2` values, the real and the imaginary part of each bin in
turn. The inverse restores the missing bins, transforms back and divides by `N`.
-/
namespace Timbre.Spectrum

variable {α : Type}

def requireEven (input : Format Signal) (minimum : Nat) : Except Error Unit :=
  if input.size % 2 ≠ 0 ∨ input.size < minimum then .error (input.refuse (.notEven minimum))
  else .ok ()

def interleave (bins : Array (Bin α)) : Array α := bins.flatMap fun z => #[z.re, z.im]

def toBins (xs : Array α) : Array (Bin α) := (Samples.pairs xs).map fun p => ⟨p.1, p.2⟩

/-- The spectrum of a signal over an output. A value at the end of an output of odd length stays. -/
def forward [Zero α] (plan : Plan α) (xs out : Array α) : Except Fault (Array α × Plan α) :=
  plan.run fun buffer =>
    let spectrum := plan.transform (Samples.overwrite buffer (xs.map Bin.ofReal))
    let whole := out.size / 2 * 2
    .ok (spectrum, Samples.overwrite out ((interleave spectrum).extract 0 whole))

def storeBins (buffer bins : Array (Bin α)) : Except Fault (Array (Bin α)) :=
  if bins.size ≤ buffer.size then .ok (Samples.overwrite buffer bins) else .error .outOfRange

/-- Bin `length - bin` becomes the conjugate of bin `bin`. -/
def mirrorBin [Neg α] (length : Nat) (buffer : Array (Bin α)) (bin : Nat) :
    Except Fault (Array (Bin α)) := do
  let z ← Checked.get buffer bin
  Checked.set buffer (← Checked.sub length bin) z.conj

/-- The bins above the middle, from those below it. -/
def mirror [Neg α] (length : Nat) (buffer : Array (Bin α)) : Except Fault (Array (Bin α)) :=
  (List.range' 1 (length / 2 - 1)).foldlM (mirrorBin length) buffer

def inverse [Zero α] [One α] [Neg α] [Mul α] [Div α] [NatCast α] (plan : Plan α)
    (xs out : Array α) : Except Fault (Array α × Plan α) :=
  plan.run fun buffer => do
    let length := out.size
    let stored ← storeBins buffer ((toBins xs).extract 0 (length / 2 + 1))
    let signal := plan.transform (← mirror length stored)
    let scale : α := 1 / (length : α)
    return (signal, Samples.overwrite out (signal.map fun z => z.re * scale))

/-- Work with a plan; a kernel without one writes nothing and says so. -/
def planned {Settings Shape β : Type} {k : Kind} (name : String)
    (f : Plan β → Array Single → k.Element → Except Fault (k.Element × Plan β)) :
    Work Settings Shape (Option (Plan β)) (Array Single) k.Element :=
  .perElement fun _ _ plan xs out =>
    match plan with
    | none => .ok ⟨out, none, [.unprepared name]⟩
    | some plan =>
      match f plan xs out with
      | .error e => .error e
      | .ok (out', plan') => .ok ⟨out', some plan', []⟩

def forwardKernel : Kernel where
  name := "RDFT"
  description := "Performs the Discrete Fourier Transform on the real input signal."
  parallel := true
  parameters := []
  input := Signal
  output := Signal
  Settings := Unit
  Shape := Unit
  Plan := Option (Plan Single)
  settings := ()
  shape := ()
  plan := none
  set := noParameters
  accept _ shape input _ count :=
    match requireEven input 2 with
    | .error e => { shape, answer := .error e }
    | .ok () => { shape, answer := .ok (input.withSize (input.size + 2), count) }
  prepare _ _ _ input _ workers :=
    .ok (some (.ofLength (Fourier.transform .forward) input.size workers))
  work := planned (k := Signal) "RDFT" forward

def inverseKernel : Kernel where
  name := "RDFTInverse"
  description := "Performs the Inverse Discrete Fourier Transform on the complex spectrum."
  parallel := true
  parameters := []
  input := Signal
  output := Signal
  Settings := Unit
  Shape := Unit
  Plan := Option (Plan Single)
  settings := ()
  shape := ()
  plan := none
  set := noParameters
  accept _ shape input _ count :=
    match requireEven input 4 with
    | .error e => { shape, answer := .error e }
    | .ok () =>
      match Checked.sub input.size 2 with
      | .error e => { shape, answer := .error (.fault "RDFTInverse" e) }
      | .ok size => { shape, answer := .ok (input.withSize size, count) }
  prepare _ _ _ _ output workers :=
    .ok (some (.ofLength (Fourier.transform .inverse) output.size workers))
  work := planned (k := Signal) "RDFTInverse" inverse

end Timbre.Spectrum
