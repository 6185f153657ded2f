import Timbre.Kernel.Basic

/-! # Tempo search

A tempo is scored by the energy of a signal convolved with a comb: as many unit pulses as the
settings say, one beat apart. Pulses that meet the rhythm add up. A coarse pass scores the whole
range of tempos for a group of signals; its strongest local maxima are searched once more in fine
steps, and each gives one pair of tempo and energy.
-/
namespace Timbre.Tempo

def secondsPerMinute : Nat := 60

def maxPeaks : Nat := 10

def maxPulses : Nat := 64

def minResolution : Single := 0.01

def maxTempo : Nat := 600

def maxCombLength : Nat := 1 <<< 24

structure Settings (α : Type) where
  /-- The number of signals in a group. -/
  bands : Nat
  pulses : Nat
  minTempo : Nat
  maxTempo : Nat
  coarse : α
  fine : α
  peaks : Nat
deriving DecidableEq

structure Peak (α : Type) where
  tempo : α
  energy : α
deriving DecidableEq

section Search

variable {α : Type} [Add α] [Sub α] [Mul α] [Div α] [Zero α] [NatCast α] [LT α] [DecidableLT α]
  [LE α] [DecidableLE α] [Rounding α]

/-- An emptied array, filled up with zeros to a length. -/
def cleared (buffer : Array α) (length : Nat) : Array α :=
  let rest := buffer.take 0
  rest ++ Array.replicate (length - rest.size) 0

def addAt (buffer signal : Array α) (offset : Nat) : Except Fault (Array α) :=
  if offset ≤ buffer.size then
    .ok (buffer.mapIdx fun i y =>
      if offset ≤ i then
        match signal[i - offset]? with
        | some x => y + x
        | none => y
      else y)
  else .error .outOfRange

/-- The convolution of a signal with a comb, in a buffer used before. -/
def comb (pulses period : Nat) (signal buffer : Array α) : Except Fault (Array α) := do
  let spread ← Checked.sub pulses 1
  (List.range pulses).foldlM (fun b pulse => addAt b signal (pulse * period))
    (cleared buffer (signal.size + spread * period))

/-- The energy of the convolution, and the buffer that holds it. -/
def combEnergy (pulses period : Nat) (signal buffer : Array α) : Except Fault (α × Array α) := do
  let convolved ← comb pulses period signal buffer
  return (Samples.energy convolved, convolved)

def groupEnergy (pulses period : Nat) (group : List (Array α)) (buffer : Array α) :
    Except Fault (α × Array α) :=
  group.foldlM (fun acc signal => do
    let (e, buffer') ← combEnergy pulses period signal acc.2
    return (acc.1 + e, buffer')) (0, buffer)

/-- The samples of one beat, at least one. -/
def period (rate tempo : α) : Nat :=
  max (Rounding.toNat (Rounding.floor ((secondsPerMinute : α) * rate / tempo))) 1

/-- The number of tempos from `low` in steps of `step` that a pass scores. -/
def searchSize (low high step : α) : Nat := Rounding.toNat (Rounding.floor ((high - low) / step))

def tempoAt (low step : α) (i : Nat) : α := low + step * (i : α)

/-- A pass under way: the energies so far, the strongest tempo, and the buffer. -/
structure Pass (α : Type) where
  energies : Array α
  best : Peak α
  buffer : Array α

def Pass.push (pulses : Nat) (rate : α) (group : List (Array α)) (low step : α) (pass : Pass α)
    (i : Nat) : Except Fault (Pass α) := do
  let tempo := tempoAt low step i
  let (energy, buffer) ← groupEnergy pulses (period rate tempo) group pass.buffer
  return ⟨pass.energies.push energy,
    if pass.best.energy < energy then ⟨tempo, energy⟩ else pass.best, buffer⟩

/-- Scores the tempos from `low` up to but not including `high`. The first of several strongest
tempos counts; where nothing has any energy, the lowest tempo is left with none. -/
def search (pulses : Nat) (rate : α) (group : List (Array α)) (low high step : α)
    (buffer : Array α) : Except Fault (Pass α) :=
  (List.range (searchSize low high step)).foldlM (Pass.push pulses rate group low step)
    ⟨#[], ⟨low, 0⟩, buffer⟩

/-- Whether a value lies above its left neighbour and not below its right one. -/
def isPeak (values : Array α) (i : Nat) : Bool :=
  match values[i - 1]?, values[i]?, values[i + 1]? with
  | some l, some x, some r => 0 < i && l < x && r ≤ x
  | _, _, _ => false

def localMaxima (values : Array α) : List Nat := (List.range values.size).filter (isPeak values)

/-- The `count` strongest of the local maxima, the lower of two equal ones first, back in the order
of their positions. Energies are not negative, so their maxima are positive, and it is the same
whether such numbers or their patterns are compared. -/
def strongest (values : Array α) (count : Nat) : List Nat :=
  let byEnergy := (localMaxima values).mergeSort fun a b =>
    (values[b]?.getD 0) ≤ (values[a]?.getD 0)
  (byEnergy.take count).mergeSort (· ≤ ·)

/-- The fine pass around a coarse position: from one coarse step below it to one above. -/
def refinePeak (s : Settings α) (rate : α) (group : List (Array α)) (buffer : Array α)
    (position : Nat) : Except Fault (Peak α × Array α) := do
  let before ← Checked.sub position 1
  let pass ← search s.pulses rate group (tempoAt (s.minTempo : α) s.coarse before)
    (tempoAt (s.minTempo : α) s.coarse (position + 1)) s.fine buffer
  return (pass.best, pass.buffer)

def analyze (s : Settings α) (rate : α) (group : List (Array α)) :
    Except Fault (List (Peak α)) := do
  let coarse ← search s.pulses rate group (s.minTempo : α) (s.maxTempo : α) s.coarse #[]
  let (peaks, _) ← (strongest coarse.energies s.peaks).foldlM (fun acc position => do
    let (peak, buffer) ← refinePeak s rate group acc.2 position
    return (acc.1 ++ [peak], buffer)) (([] : List (Peak α)), coarse.buffer)
  return peaks

def longestPeriod (s : Settings α) (rate : α) : Nat :=
  Rounding.toNat (Rounding.floor ((secondsPerMinute : α) * rate / (s.minTempo : α)))

/-- The length of the widest comb convolution of a signal of `size` samples. -/
def combLength (s : Settings α) (rate : α) (size : Nat) : Except Fault Nat := do
  let spread ← Checked.sub s.pulses 1
  return spread * longestPeriod s rate + size

end Search

def report {α : Type} [Zero α] (peaks : List (Peak α)) (out : Array (Vector α 2)) :
    Array (Vector α 2) :=
  Samples.overwrite (out.map fun _ => Vector.replicate 2 0)
    (peaks.map fun p => #v[p.tempo, p.energy]).toArray

def defaults : Settings Single where
  bands := 1
  pulses := 3
  minTempo := 60
  maxTempo := 240
  coarse := 1
  fine := 0.1
  peaks := 3

def set (s : Settings Single) (name : String) (text : List Char) :
    Except ParameterError (Settings Single) :=
  match name with
  | "bands" => setting do return { s with bands := ← Parameter.readSize 1 maxSize text }
  | "pulses" => setting do return { s with pulses := ← Parameter.readSize 1 maxPulses text }
  | "min_bpm" => setting do return { s with minTempo := ← Parameter.readWord 1 maxTempo text }
  | "max_bpm" => setting do return { s with maxTempo := ← Parameter.readWord 1 maxTempo text }
  | "resolution1" =>
    setting do return { s with coarse := ← Parameter.readSingleWithin minResolution maxTempo text }
  | "resolution2" =>
    setting do return { s with fine := ← Parameter.readSingleWithin minResolution maxTempo text }
  | "max_peaks" => setting do return { s with peaks := ← Parameter.readSize 1 maxPeaks text }
  | _ => .error .unknown

/-- The rate is kept from the moment it is known, also where the comb turns out too long. -/
def accept (s : Settings Single) (rate : Single) (input : Format Signal)
    (output : Format (.array (.tuple 2))) (count : Nat) :
    Acceptance Single (.array (.tuple 2)) :=
  if s.maxTempo ≤ s.minTempo then
    { shape := rate, answer := .error (input.refuse (.tempoRange s.minTempo s.maxTempo)) }
  else match Checked.mod count s.bands with
    | .error e => { shape := rate, answer := .error (.fault "Beat" e) }
    | .ok (_ + 1) =>
      { shape := rate, answer := .error (input.refuse (.groups count s.bands)) }
    | .ok 0 =>
      match input.samplingRate with
      | .error e => { shape := rate, answer := .error e }
      | .ok hz =>
        { shape := (hz : Single)
          answer := do
            let length ← (combLength s (hz : Single) input.size).mapError (.fault "Beat")
            if length ≤ maxCombLength then
              let groups ← (Checked.div count s.bands).mapError (.fault "Beat")
              return (output.withSize s.peaks, groups)
            else .error (input.refuse (.combTooLong s.pulses s.minTempo maxCombLength)) }

def work (s : Settings Single) (rate : Single) (signals : Array (Array Single))
    (outs : Array (Array (Vector Single 2))) :
    Except Fault (Array (Array (Vector Single 2))) := do
  let groups := (Samples.chunks s.bands signals).map Array.toList
  let (done, ()) ← Samples.zipWithM
    (fun () group out => return (report (← analyze s rate group) out, ())) () groups outs.toList
  return done.toArray

def kernel : Kernel where
  name := "Beat"
  description := "Finds the tempo of the signal using comb filter convolution."
  parallel := false
  parameters :=
    [⟨"bands", "Number of consecutive buffers analyzed together.", "1"⟩,
      ⟨"pulses", "Number of impulses in the comb filter.", "3"⟩,
      ⟨"min_bpm", "Minimal tempo to search for.", "60"⟩,
      ⟨"max_bpm", "Maximal tempo to search for.", "240"⟩,
      ⟨"resolution1", "Tempo step of the coarse pass.", "1"⟩,
      ⟨"resolution2", "Tempo step of the fine pass.", "0.1"⟩,
      ⟨"max_peaks", "Number of tempo peaks to report.", "3"⟩]
  input := Signal
  output := .array (.tuple 2)
  Settings := Settings Single
  /- The sampling rate of the signals. -/
  Shape := Single
  Plan := Unit
  settings := defaults
  shape := 0
  plan := ()
  set := set
  accept := accept
  prepare := noPlan
  work := .wholeBatch fun s rate _ signals outs => do
    return ⟨← work s rate signals outs, (), []⟩

end Timbre.Tempo
