import Timbre.Number.Arithmetic

/-! # Scalars

The kernels are written for any scalar type with the operations that they use, so that the same
definition runs in single precision and can be read in exact arithmetic. Addition, multiplication
and the order come from the classes of the core library; what they lack stands here.
-/
namespace Timbre

/-- Rounding to whole values, and the way between scalars and natural numbers. -/
class Rounding (α : Type) where
  floor : α → α
  ceil : α → α
  /-- A half goes away from zero. -/
  round : α → α
  /-- The whole part; zero for what is below zero or no number. -/
  toNat : α → Nat
  /-- The natural number that `n` becomes when it is written as a scalar. -/
  index : Nat → Nat

instance : Rounding Single where
  floor := Single.floor
  ceil := Single.ceil
  round := Single.round
  toNat := Single.toNat
  index := Single.nearestIndex

instance natCastDouble : NatCast Float := ⟨fun n => n.toUInt64.toFloat⟩

end Timbre
