import Timbre.Fourier.Bin

/-! # Turns and roots of unity

A root of unity turns a bin by a part of a circle. Quarter turns swap the two parts and eighth turns
scale a sum, so neither multiplies one part of a bin by the zero of another: an infinite part stays
what it is. Every other root is a complex factor, computed in double precision and rounded to the
precision of the values.
-/
namespace Timbre

/-- Scalars with a way to double precision and back. -/
class Precision (α : Type) where
  widen : α → Float
  narrow : Float → α

instance : Precision Single := ⟨Single.toDouble, Single.ofDouble⟩

instance : Precision Float := ⟨id, id⟩

namespace Fourier

inductive Direction
  | forward
  | inverse
deriving DecidableEq, Repr

def Direction.opposite : Direction → Direction
  | forward => inverse
  | inverse => forward

variable {α : Type}

/-- The `k`-th power of the primitive `n`-th root of unity that the direction asks for. -/
def root (direction : Direction) (k n : Nat) : Bin Float :=
  let angle := -2.0 * 3.141592653589793 / n.toUInt64.toFloat * k.toUInt64.toFloat
  match direction with
  | .forward => ⟨angle.cos, angle.sin⟩
  | .inverse => ⟨angle.cos, -angle.sin⟩

def rootIn (α : Type) [Precision α] (direction : Direction) (k n : Nat) : Bin α :=
  (root direction k n).map Precision.narrow

/-- A quarter turn in the sense of the direction. -/
def quarterTurn [Neg α] (direction : Direction) (z : Bin α) : Bin α :=
  match direction with
  | .forward => ⟨z.im, -z.re⟩
  | .inverse => ⟨-z.im, z.re⟩

def eighthTurns [Add α] [Sub α] [Mul α] [Neg α] [Precision α] (direction : Direction)
    (eighths : Nat) (z : Bin α) : Bin α :=
  let diagonal : α := Precision.narrow (0.5 : Float).sqrt
  let quarter := quarterTurn direction z
  match eighths with
  | 0 => z
  | 1 => (quarter.add z).scale diagonal
  | 2 => quarter
  | 3 => (quarter.sub z).scale diagonal
  | 4 => z.neg
  | 5 => (quarter.add z).scale (-diagonal)
  | 6 => quarter.neg
  | _ => (quarter.sub z).scale (-diagonal)

/-- The bin turned by a root of unity that is a complex factor. -/
def turn [Add α] [Sub α] [Mul α] [Precision α] (direction : Direction) (k n : Nat) (z : Bin α) :
    Bin α :=
  z.mul (rootIn α direction k n)

end Fourier

end Timbre
