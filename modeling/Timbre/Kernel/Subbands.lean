import Timbre.Kernel.Basic

/-! # Energies of subbands

A list of depths describes the leaves of a wavelet packet tree from the lowest band up; a leaf at
depth `d` covers the part `1 / 2 ^ d` of an array. The leaves stand one after the other and have to
cover the array exactly. The output is the energy of each leaf.
-/
namespace Timbre.Subbands

def maxDepth : Nat := 24

/-- The positions from `start` up to but not including `stop`. -/
structure Band where
  start : Nat
  stop : Nat
deriving DecidableEq, Repr

inductive TilingError
  | notDivisible (depth : Nat)
  | coverage (covered size : Nat)
  | fault (cause : Fault)
deriving DecidableEq, Repr

/-- The width of a leaf, which has to divide the size into `2 ^ depth` equal parts. -/
def width (size depth : Nat) : Except TilingError Nat := do
  let w ← (Checked.shiftRight size depth).mapError .fault
  if w = 0 then .error (.notDivisible depth)
  else
    let back ← (Checked.shiftLeft w depth).mapError .fault
    if back = size then return w else .error (.notDivisible depth)

/-- The bands of the depths from `offset` on, and where they end. -/
def bandsFrom (size : Nat) : (offset : Nat) → List Nat → Except TilingError (List Band × Nat)
  | offset, [] => .ok ([], offset)
  | offset, depth :: depths => do
    let w ← width size depth
    let (bands, last) ← bandsFrom size (offset + w) depths
    return (⟨offset, offset + w⟩ :: bands, last)

/-- The bands of the depths, which cover the array exactly. -/
def tile (size : Nat) (depths : List Nat) : Except TilingError (List Band) := do
  let (bands, last) ← bandsFrom size 0 depths
  if last = size then return bands else .error (.coverage last size)

def readDepths (text : List Char) : Except ValueProblem (List Nat) := do
  let depths ← Parameter.readList (fun item =>
    (Parameter.readInteger (.unsigned 32) item).map Int.toNat) text
  if depths.isEmpty then .error .noLeaves
  else match depths.find? (maxDepth < ·) with
    | some depth => .error (.tooDeep depth maxDepth)
    | none => return depths

def set (_ : List Nat) (name : String) (text : List Char) : Except ParameterError (List Nat) :=
  match name with
  | "tree" => setting (readDepths text)
  | _ => .error .unknown

def energies {α : Type} [Add α] [Mul α] [Zero α] (bands : List Band) (xs out : Array α) :
    Except Fault (Array α) :=
  ((bands.take out.size).mapM fun b =>
      (Checked.slice xs b.start b.stop).map Samples.energy).map fun es =>
    Samples.overwrite out es.toArray

def refusal (input : Format Signal) : TilingError → Error
  | .notDivisible depth => input.refuse (.notDivisible depth)
  | .coverage covered size => input.refuse (.coverage covered size)
  | .fault cause => .fault "SubbandEnergy" cause

def accept (depths : List Nat) (bands : List Band) (input : Format Signal) (count : Nat) :
    Acceptance (List Band) Signal :=
  match tile input.size depths with
  | .error e => { shape := bands, answer := .error (refusal input e) }
  | .ok bands' => { shape := bands', answer := .ok (input.withSize depths.length, count) }

def kernel : Kernel where
  name := "SubbandEnergy"
  description := "Calculates the energy of every subband described by a wavelet packet tree."
  parallel := true
  parameters := [⟨"tree", "Depths of the subband tree leaves, lowest band first.", "3 3 2 2 3 3"⟩]
  input := Signal
  output := Signal
  Settings := List Nat
  Shape := List Band
  Plan := Unit
  settings := [3, 3, 2, 2, 3, 3]
  shape := []
  plan := ()
  set := set
  accept depths bands input _ count := accept depths bands input count
  prepare := noPlan
  work := plainWork fun _ bands xs out => energies bands xs out

end Timbre.Subbands
