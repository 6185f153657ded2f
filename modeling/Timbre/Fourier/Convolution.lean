import Timbre.Fourier.Generator
import Timbre.Fourier.Root

/-! # Transforms as convolutions

A transform can be turned into a convolution of another length, which is a transform, a product with
the spectrum of a kernel and a transform back. The way back is the way there between two
conjugations, so one inner transform does all the work. Main statements: both ways keep the number
of bins (`size_cycle`, `size_chirp`).
-/
namespace Timbre.Fourier

variable {α : Type}

def placeAll (bins : Array (Bin α)) (entries : List (Nat × Bin α)) : Array (Bin α) :=
  entries.foldl (fun bins e => bins.setIfInBounds e.1 e.2) bins

@[simp] theorem size_placeAll (bins : Array (Bin α)) (entries : List (Nat × Bin α)) :
    (placeAll bins entries).size = bins.size := by
  induction entries generalizing bins with
  | nil => rfl
  | cons e entries ih => exact (ih _).trans Array.size_setIfInBounds

variable [Zero α] [Add α] [Sub α] [Mul α] [Neg α] [Precision α]

def share (α : Type) [Precision α] (n : Nat) : α :=
  Precision.narrow (1.0 / n.toUInt64.toFloat)

/-- A bin of a spectrum times that of a kernel, conjugated for the way back. -/
def weigh (kernel spectrum : Array (Bin α)) (i : Nat) : Bin α :=
  ((binAt spectrum i).mul (binAt kernel i)).conj

/-- A prime number `n` of values, with an inner transform of `n - 1`. The values after the first one
are taken in the order of the powers of a generator and the roots in the opposite order; then the
bins are a cyclic convolution of the two. The first value is added to each of them by way of the
sum of all. -/
def cycle (direction : Direction) (n : Nat) (inner : Array (Bin α) → Array (Bin α))
    (xs : Array (Bin α)) : Array (Bin α) :=
  let g := generator n
  let forth := powers g n (n - 1) g
  let back := forth.reverse
  let factor := share α (n - 1)
  let kernel := inner (back.map fun k => (rootIn α direction k n).scale factor).toArray
  let spectrum := inner (forth.map (binAt xs)).toArray
  let answers := inner (Array.ofFn fun i : Fin (n - 1) =>
    let z := weigh kernel spectrum i.val
    if i.val = 0 then z.add (binAt xs 0).conj else z)
  placeAll ((Array.replicate n .zero).setIfInBounds 0 ((binAt xs 0).add (binAt spectrum 0)))
    ((back.rotateLeft 1).zip (answers.toList.map Bin.conj))

@[simp] theorem size_cycle (direction : Direction) (n : Nat)
    (inner : Array (Bin α) → Array (Bin α)) (xs : Array (Bin α)) :
    (cycle direction n inner xs).size = n := by
  simp [cycle]

/-- The root whose angle grows with the square of `i`, for a transform of `n` values. -/
def chirpRoot (α : Type) [Precision α] (direction : Direction) (n i : Nat) : Bin α :=
  rootIn α direction (i * i % (2 * n)) (2 * n)

/-- Any number `n` of values, with an inner transform of at least `2 * n - 1`. The values are
multiplied by a chirp, convolved with the opposite chirp and multiplied by the chirp once more. -/
def chirp (direction : Direction) (n m : Nat) (inner : Array (Bin α) → Array (Bin α))
    (xs : Array (Bin α)) : Array (Bin α) :=
  let factor := share α m
  let opposite (i : Nat) := (chirpRoot α direction.opposite n i).scale factor
  let kernel := inner (Array.ofFn fun i : Fin m =>
    if i.val < n then opposite i.val else if m - i.val < n then opposite (m - i.val) else .zero)
  let spectrum := inner (Array.ofFn fun i : Fin m =>
    if i.val < n then (binAt xs i.val).mul (chirpRoot α direction n i.val) else .zero)
  let answers := inner (Array.ofFn fun i : Fin m => weigh kernel spectrum i.val)
  Array.ofFn fun k : Fin n => (binAt answers k.val).conj.mul (chirpRoot α direction n k.val)

@[simp] theorem size_chirp (direction : Direction) (n m : Nat)
    (inner : Array (Bin α) → Array (Bin α)) (xs : Array (Bin α)) :
    (chirp direction n m inner xs).size = n := by
  simp [chirp]

end Timbre.Fourier
