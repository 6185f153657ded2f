import Timbre.Fourier.Choice

/-! # Discrete Fourier transforms

The transform of a list of bins by the scheme of its length, in the precision of the values. Main
statement: a transform has as many bins as its argument (`size_transform`).
-/
namespace Timbre.Fourier

variable {α : Type} [Zero α] [Add α] [Sub α] [Mul α] [Neg α] [Precision α]

/-- The spectrum, not scaled in either direction. -/
def transform (direction : Direction) (xs : Array (Bin α)) : Array (Bin α) :=
  (Scheme.ofLength xs.size).run direction xs

theorem size_transform (direction : Direction) (xs : Array (Bin α)) :
    (transform direction xs).size = xs.size := by
  rw [transform, Scheme.size_run, Scheme.length_ofLength]

end Timbre.Fourier
