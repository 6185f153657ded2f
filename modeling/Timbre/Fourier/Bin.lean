import Timbre.Number.Scalar

/-! # Bins

A bin is one complex coefficient of a spectrum.
-/
namespace Timbre

structure Bin (α : Type) where
  re : α
  im : α
deriving DecidableEq

namespace Bin

variable {α β : Type}

def zero [Zero α] : Bin α := ⟨0, 0⟩

def ofReal [Zero α] (x : α) : Bin α := ⟨x, 0⟩

def conj [Neg α] (z : Bin α) : Bin α := ⟨z.re, -z.im⟩

def neg [Neg α] (z : Bin α) : Bin α := ⟨-z.re, -z.im⟩

def normSq [Add α] [Mul α] (z : Bin α) : α := z.re * z.re + z.im * z.im

def map (f : α → β) (z : Bin α) : Bin β := ⟨f z.re, f z.im⟩

def add [Add α] (z w : Bin α) : Bin α := ⟨z.re + w.re, z.im + w.im⟩

def sub [Sub α] (z w : Bin α) : Bin α := ⟨z.re - w.re, z.im - w.im⟩

def mul [Add α] [Sub α] [Mul α] (z w : Bin α) : Bin α :=
  ⟨z.re * w.re - z.im * w.im, z.re * w.im + z.im * w.re⟩

def scale [Mul α] (z : Bin α) (factor : α) : Bin α := ⟨z.re * factor, z.im * factor⟩

end Bin

/-- The bin at a place; zero where there is none. -/
def binAt {α : Type} [Zero α] (bins : Array (Bin α)) (i : Nat) : Bin α := bins.getD i .zero

end Timbre
