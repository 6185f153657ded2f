import Timbre.Kernel.Basic

/-! # Banks of triangular filters

The filters of a bank are triangles of equal width on a frequency scale, each reaching from the
centre of the one before to the centre of the next. A filter is built from its centre and half its
width on the scale; it covers the points of a spectrum between its two feet, at least one point, and
its weight is one at the point nearest to its centre. A bank turns a spectrum into the energy that
each filter lets through.
-/
namespace Timbre.FilterBank

def maxFilters : Nat := 2048

structure Scale (α : Type) where
  fromHz : α → α
  toHz : α → α

def Scale.linear (α : Type) : Scale α := ⟨id, id⟩

inductive FrequencyScale
  | linear
  | mel
  | bark
deriving DecidableEq, Repr

namespace FrequencyScale

def choices : List (String × FrequencyScale) :=
  [("linear", .linear), ("mel", .mel), ("bark", .bark)]

def fromHz : FrequencyScale → Single → Single
  | .linear, f => f
  | .mel, f => 1127.0 * (1.0 + f / 700.0).log
  | .bark, f =>
    8.96 * (0.978 + 5.0 * (0.994 + ((f + 75.4) / 2173.0).pow 1.347).log).log

def toHz : FrequencyScale → Single → Single
  | .linear, v => v
  | .mel, v => 700.0 * ((v / 1127.0).exp - 1.0)
  | .bark, v =>
    let inner := (((v / 8.96).exp - 0.978) / 5.0).exp - 0.994
    2173.0 * inner.pow (1.0 / 1.347) - 75.4

def scale (s : FrequencyScale) : Scale Single := ⟨s.fromHz, s.toHz⟩

end FrequencyScale

structure Settings where
  scale : FrequencyScale := .mel
  number : Nat := 32
  low : Single := 130
  high : Single := 6854
  squared : Bool := false
deriving DecidableEq

def set (s : Settings) (name : String) (text : List Char) : Except ParameterError Settings :=
  match name with
  | "type" =>
    setting do return { s with scale := ← Parameter.readChoice FrequencyScale.choices text }
  | "number" => setting do return { s with number := ← Parameter.readSize 1 maxFilters text }
  | "frequency_min" => setting do return { s with low := ← Parameter.readPositive text }
  | "frequency_max" => setting do return { s with high := ← Parameter.readPositive text }
  | "squared" => setting do return { s with squared := ← Parameter.readBool text }
  | _ => .error .unknown

/-- The weights of the points from `start` to `stop`, both included. -/
structure Filter (α : Type) where
  start : Nat
  stop : Nat
  weights : Array α

section Geometry

variable {α : Type} [Add α] [Sub α] [Mul α] [Div α] [Zero α] [One α] [NatCast α] [LE α]
  [DecidableLE α] [Rounding α]

/-- A point of a spectrum of `size` points. -/
def clampPoint (size : Nat) (x : α) : Nat := min (Rounding.toNat x) (Rounding.index α (size - 1))

/-- The first and the last point between the feet of a triangle, or the point nearest to its centre
if there is none; and the place of the centre, in points. -/
def span (scale : Scale α) (center halfWidth : α) (size : Nat) (df : α) : Nat × Nat × α :=
  let left := clampPoint size (Rounding.ceil (scale.toHz (center - halfWidth) / df))
  let right := clampPoint size (Rounding.floor (scale.toHz (center + halfWidth) / df))
  let place := scale.toHz center / df
  if right < left then
    let point := clampPoint size (Rounding.round place)
    (point, point, (point : α))
  else (left, right, place)

/-- The triangle's height at a point: it rises up to the centre and falls after it. -/
def height (scale : Scale α) (center halfWidth df place : α) (point : Nat) : α :=
  let distance := (center - scale.fromHz ((point : α) * df)) / halfWidth
  if (point : α) ≤ place then 1 - distance else 1 + distance

/-- The filter with its foot points `halfWidth` below and above `center`, for a spectrum of `size`
points that stand `df` Hz apart. -/
def Filter.triangular (scale : Scale α) (squared : Bool) (center halfWidth : α) (size : Nat)
    (df : α) : Filter α :=
  let (left, right, place) := span scale center halfWidth size df
  let peak := max left (min right (Rounding.toNat (Rounding.round place)))
  let heights := Array.ofFn fun i : Fin (right - left + 1) =>
    if left + i.val = peak then 1 else height scale center halfWidth df place (left + i.val)
  ⟨left, right, if squared then heights.map fun w => w * w else heights⟩

/-- The filters of a bank over a spectrum of `size` points of a signal with the given rate. -/
def filters (scale : Scale α) (squared : Bool) (number size : Nat) (rate low high : α) :
    Array (Filter α) :=
  let df := rate / ((2 * size : Nat) : α)
  let least := scale.fromHz low
  let step := (scale.fromHz high - least) / ((number + 1 : Nat) : α)
  Array.ofFn fun i : Fin number =>
    .triangular scale squared (least + step * ((i.val + 1 : Nat) : α)) step size df

end Geometry

/-- The energy of a spectrum that passes a filter. -/
def Filter.pass {α : Type} [Add α] [Mul α] [Zero α] (xs : Array α) (f : Filter α) :
    Except Fault α :=
  (Checked.slice xs f.start (f.stop + 1)).map fun part =>
    Samples.energy (Array.zipWith (· * ·) part f.weights)

def pass {α : Type} [Add α] [Mul α] [Zero α] (bank : Array (Filter α)) (xs out : Array α) :
    Except Fault (Array α) :=
  ((bank.extract 0 out.size).mapM (Filter.pass xs)).map (Samples.overwrite out)

def accept (s : Settings) (input : Format Signal) (count : Nat) :
    Except Error (Format Signal × Nat) := do
  let nyquist := ((← input.samplingRate : Nat) : Single) / 2
  if s.high ≤ s.low ∨ nyquist < s.high then
    .error (input.refuse (.frequencyRange s.low s.high nyquist))
  else if input.size = 0 then .error (input.refuse .emptySpectrum)
  else return (input.withSize s.number, count)

def prepare (s : Settings) (input : Format Signal) : Except Error (Array (Filter Single)) := do
  let hz ← input.samplingRate
  return filters s.scale.scale s.squared s.number input.size (hz : Single) s.low s.high

def kernel : Kernel where
  name := "FilterBank"
  description := "Converts the signal to the selected psychoacoustic scale (default is mel)."
  parallel := true
  parameters :=
    [⟨"type", "The type of the scale: linear, mel or bark.", "mel"⟩,
      ⟨"number", "The number of triangular filters.", "32"⟩,
      ⟨"frequency_min", "Minimal frequency of the filter bank.", "130"⟩,
      ⟨"frequency_max", "Maximal frequency of the filter bank.", "6854"⟩,
      ⟨"squared", "Apply squared filter weights.", "false"⟩]
  input := Signal
  output := Signal
  Settings := Settings
  Shape := Unit
  Plan := Array (Filter Single)
  settings := {}
  shape := ()
  plan := #[]
  set := set
  accept s shape input _ count := { shape, answer := accept s input count }
  prepare s _ _ input _ _ := prepare s input
  work := .perElement fun _ _ bank xs out => do
    return ⟨← pass bank xs out, bank, []⟩

end Timbre.FilterBank
