import Timbre.Kernel.Basic
import Timbre.Scratch

/-! # Differences of a signal

The first difference runs in a circle: the last value is taken to the first. Instead of it the
detail of a stationary Haar wavelet transform may be taken at some level; each level takes sums and
differences at twice the distance of the level before. Negative results may be cut off at zero.
-/
namespace Timbre.Difference

def maxLevel : Nat := 24

structure Settings where
  rectify : Bool := false
  /-- The wavelet level; at level 0 the plain difference is taken. -/
  level : Nat := 0
deriving DecidableEq, Repr

def set (s : Settings) (name : String) (text : List Char) : Except ParameterError Settings :=
  match name with
  | "rectify" => setting do return { s with rectify := ← Parameter.readBool text }
  | "swt" => setting do return { s with level := ← Parameter.readSize 0 maxLevel text }
  | _ => .error .unknown

/-- The sums of the level before and room for the sums of the next one. -/
structure Sums (α : Type) where
  approximation : Array α
  next : Array α

def Sums.ofSize {α : Type} [Zero α] (size : Nat) : Sums α :=
  ⟨Array.replicate size 0, Array.replicate size 0⟩

variable {α : Type}

/-- The value `stride` places ahead, in a circle. -/
def ahead (xs : Array α) (stride : Nat) (i : Fin xs.size) : α :=
  have h : (i.val + stride) % xs.size < xs.size := Nat.mod_lt _ (by have := i.isLt; omega)
  xs[(i.val + stride) % xs.size]

def haarStep [Add α] [Sub α] [Mul α] (c : α) (stride : Nat) (xs detail approximation : Array α) :
    Except Fault (Array α × Array α) :=
  if xs.size ≤ detail.size ∧ xs.size ≤ approximation.size then
    .ok (Samples.overwrite detail (Array.ofFn fun i => (ahead xs stride i - xs[i]) * c),
      Samples.overwrite approximation (Array.ofFn fun i => (ahead xs stride i + xs[i]) * c))
  else .error .outOfRange

/-- The levels from `level` on, `count` of them. The two arrays of sums change places at each. -/
def refine [Add α] [Sub α] [Mul α] (c : α) : (count level : Nat) → Array α → Sums α →
    Except Fault (Array α × Sums α)
  | 0, _, detail, sums => .ok (detail, sums)
  | count + 1, level, detail, sums => do
    let (detail', next') ← haarStep c (1 <<< (level - 1)) sums.approximation detail sums.next
    refine c count (level + 1) detail' ⟨next', sums.approximation⟩

def waveletDetail [Add α] [Sub α] [Mul α] (c : α) (level : Nat) (xs out : Array α)
    (sums : Sums α) : Except Fault (Array α × Sums α) := do
  let (detail, approximation) ← haarStep c 1 xs out sums.approximation
  refine c (level - 1) 2 detail ⟨approximation, sums.next⟩

/-- The circular first difference over an output, whose last place takes the step from the last
value to the first. -/
def difference [Sub α] (xs out : Array α) : Array α :=
  match xs[0]?, xs.back? with
  | some first, some last =>
    let steps := Array.zipWith (· - ·) (xs.extract 1 xs.size) xs
    (Samples.overwrite out steps).setIfInBounds (out.size - 1) (first - last)
  | _, _ => out

/-- Negative values, and what is no number, become zero. -/
def rectified [Zero α] [LT α] [DecidableLT α] (xs : Array α) : Array α :=
  xs.map fun x => if 0 < x then x else 0

def process [Zero α] [Add α] [Sub α] [Mul α] [LT α] [DecidableLT α] (c : α) (s : Settings)
    (pool : ScratchPool (Sums α)) (xs out : Array α) :
    Except Fault (Array α × ScratchPool (Sums α)) := do
  let (out', pool') ←
    if 0 < s.level then do
      let (pool', out') ← pool.borrow fun sums rest => do
        let (out', sums') ← waveletDetail c s.level xs out sums
        return (sums', rest, out')
      pure (out', pool')
    else pure (difference xs out, pool)
  return (if s.rectify then rectified out' else out', pool')

def kernel : Kernel where
  name := "Diff"
  description := "Differentiate the signal."
  parallel := true
  parameters :=
    [⟨"rectify", "Set all negative values to zero.", "false"⟩,
      ⟨"swt", "Use the stationary wavelet transform detail at this level (0 disables).", "0"⟩]
  input := Signal
  output := Signal
  Settings := Settings
  Shape := Unit
  Plan := ScratchPool (Sums Single)
  settings := {}
  shape := ()
  plan := .ofSize 1 ⟨#[], #[]⟩
  set := set
  accept _ shape input _ count := { shape, answer := .ok (input, count) }
  prepare s _ pool input _ workers :=
    .ok (if 0 < s.level then .ofSize workers (.ofSize input.size) else pool)
  work := .perElement fun s _ pool xs out => do
    let (out', pool') ← process Single.invSqrtTwo s pool xs out
    return ⟨out', pool', []⟩

end Timbre.Difference
