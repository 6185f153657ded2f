import Mathlib.Algebra.Order.Floor.Ring
import Mathlib.Algebra.Order.Floor.Semiring
import Mathlib.Tactic.Linarith
import Timbre.Number.Scalar

/-! # Exact arithmetic

An ordered field with whole parts is a scalar type: nothing is rounded but where a kernel rounds,
and no natural number is changed by being written as a scalar.
-/
namespace Timbre

variable {K : Type} [Field K] [LinearOrder K] [IsStrictOrderedRing K] [FloorRing K]

instance (priority := low) exactRounding : Rounding K where
  floor x := ⌊x⌋
  ceil x := ⌈x⌉
  round x := if 0 ≤ x then ⌊x + 1 / 2⌋ else ⌈x - 1 / 2⌉
  toNat x := ⌊x⌋₊
  index n := n

@[simp] theorem toNat_floor (x : K) : Rounding.toNat (Rounding.floor x) = ⌊x⌋₊ := by
  change ⌊((⌊x⌋ : ℤ) : K)⌋₊ = ⌊x⌋₊
  rw [← Int.floor_toNat, Int.floor_intCast, Int.floor_toNat]

@[simp] theorem toNat_ceil (x : K) : Rounding.toNat (Rounding.ceil x) = ⌈x⌉₊ := by
  change ⌊((⌈x⌉ : ℤ) : K)⌋₊ = ⌈x⌉₊
  rw [← Int.floor_toNat, Int.floor_intCast, Int.ceil_toNat]

theorem toNat_round {x : K} (hx : 0 ≤ x) : Rounding.toNat (Rounding.round x) = ⌊x + 1 / 2⌋₊ := by
  change ⌊if 0 ≤ x then ((⌊x + 1 / 2⌋ : ℤ) : K) else (⌈x - 1 / 2⌉ : ℤ)⌋₊ = ⌊x + 1 / 2⌋₊
  rw [if_pos hx, ← Int.floor_toNat, Int.floor_intCast, Int.floor_toNat]

theorem toNat_round_mono {x y : K} (hx : 0 ≤ x) (h : x ≤ y) :
    Rounding.toNat (Rounding.round x) ≤ Rounding.toNat (Rounding.round y) := by
  rw [toNat_round hx, toNat_round (hx.trans h)]
  exact Nat.floor_mono (by linarith)

theorem floor_le_toNat_round {x : K} (hx : 0 ≤ x) :
    ⌊x⌋₊ ≤ Rounding.toNat (Rounding.round x) := by
  rw [toNat_round hx]
  exact Nat.floor_mono (by linarith)

theorem toNat_round_le_ceil {x : K} (hx : 0 ≤ x) :
    Rounding.toNat (Rounding.round x) ≤ ⌈x⌉₊ := by
  have hceil : x ≤ ⌈x⌉₊ := Nat.le_ceil x
  rw [toNat_round hx, ← Nat.lt_succ_iff, Nat.floor_lt (by linarith)]
  push_cast
  linarith

end Timbre
