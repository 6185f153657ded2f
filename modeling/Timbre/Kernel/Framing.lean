import Timbre.Kernel.Basic

/-! # Frames of a signal

A signal is cut into frames of `length` samples, one every `step` samples, and each frame is
multiplied by a window. Samples after the last whole frame are dropped. The frames of one signal
stand together in the output.
-/
namespace Timbre.Framing

inductive WindowType
  | rectangular
  | hamming
  | hann
deriving DecidableEq, Repr

def WindowType.choices : List (String × WindowType) :=
  [("rectangular", .rectangular), ("hamming", .hamming), ("hann", .hann)]

/-- The factor of sample `index` in a window of `length` samples. -/
def WindowType.coefficient (window : WindowType) (index length : Nat) : Single :=
  if length < 2 then 1
  else
    let phase := 2 * Single.pi * (index : Single) / ((length - 1 : Nat) : Single)
    match window with
    | .rectangular => 1
    | .hamming => 0.54 - 0.46 * phase.cos
    | .hann => 0.5 * (1 - phase.cos)

structure Settings where
  length : Nat := 512
  step : Nat := 256
  window : WindowType := .hamming
deriving DecidableEq, Repr

def set (s : Settings) (name : String) (text : List Char) : Except ParameterError Settings :=
  match name with
  | "length" => setting do return { s with length := ← Parameter.readSize 1 maxSize text }
  | "step" => setting do return { s with step := ← Parameter.readSize 1 maxSize text }
  | "type" => setting do return { s with window := ← Parameter.readChoice WindowType.choices text }
  | _ => .error .unknown

/-- The frames of a signal of `size` samples, which is at least one frame long. -/
def frameCount (s : Settings) (size : Nat) : Except Fault Nat := do
  let room ← Checked.sub size s.length
  let steps ← Checked.div room s.step
  return steps + 1

def coefficients (s : Settings) : Array Single :=
  Array.ofFn fun i : Fin s.length => s.window.coefficient i s.length

/-- Frame `index` of a signal, over an output frame. -/
def frame (s : Settings) (window : Array Single) (signal : Array Single) (index : Nat)
    (out : Array Single) : Except Fault (Array Single) := do
  let start := index * s.step
  let samples ← Checked.slice signal start (start + s.length)
  return Samples.overwrite out (Array.zipWith (· * ·) samples window)

def framesOf (s : Settings) (window : Array Single) (signal : Array Single)
    (outs : List (Array Single)) : Except Fault (List (Array Single)) :=
  outs.zipIdx.mapM fun p => frame s window signal p.2 p.1

/-- Every signal with its piece of the output; outputs without a signal stay. -/
def frames (s : Settings) (count : Nat) (window : Array Single)
    (signals outs : Array (Array Single)) : Except Fault (Array (Array Single)) := do
  let pieces := (Samples.chunks (max count 1) outs).map Array.toList
  let (done, ()) ← Samples.zipWithM
    (fun () signal piece => return (← framesOf s window signal piece, ())) ()
    signals.toList pieces
  return done.flatten.toArray

def kernel : Kernel where
  name := "Window"
  description := "Splits signals into overlapping frames and applies a window function."
  parallel := false
  parameters :=
    [⟨"length", "Frame length in samples.", "512"⟩,
      ⟨"step", "Distance between frame starts in samples.", "256"⟩,
      ⟨"type", "Window function: rectangular, hamming or hann.", "hamming"⟩]
  input := Signal
  output := Signal
  Settings := Settings
  /- The frames of each signal. -/
  Shape := Nat
  /- The window's factors. -/
  Plan := Array Single
  settings := {}
  shape := 0
  plan := #[]
  set := set
  accept s shape input output count :=
    if input.size < s.length then
      { shape, answer := .error (input.refuse (.windowTooLong s.length)) }
    else match frameCount s input.size with
      | .error e => { shape, answer := .error (.fault "Window" e) }
      | .ok n => { shape := n, answer := .ok (output.withSize s.length, count * n) }
  prepare s _ _ _ _ _ := .ok (coefficients s)
  work := .wholeBatch fun s n window signals outs => do
    return ⟨← frames s n window signals outs, window, []⟩

end Timbre.Framing
