import Mathlib
import Timbre.Number.Arithmetic

/-! # Values of single-precision numbers

A finite number has a rational value, and finite numbers are compared by their values. The
comparison of `Float32` goes by the parts of two patterns, so the parts that it reads are shown to
be the parts that are read here; a number of a greater exponent is greater because its mantissa has
its first bit set. For the same reason positive numbers are in the order of their patterns. That a
pattern survives being unpacked and packed is `pack_unpack`, which no part of Mathlib imports by
itself, so this module imports the whole.
-/
namespace Timbre

open Float.Model (Format UnpackedFloat)
open Float.Model.UnpackedFloat

namespace SingleParts

def value : SingleParts → ℚ
  | .finite negative mantissa exponent =>
    (if negative then -1 else 1) * (mantissa * 2 ^ exponent)
  | _ => 0

/-- What 32 bits can hold: below the first mantissa with its first bit set, only the least
exponent. -/
def Stored : SingleParts → Prop
  | .finite _ mantissa exponent =>
    mantissa < 0x1000000 ∧ -149 ≤ exponent ∧ (0x800000 ≤ mantissa ∨ exponent = -149)
  | _ => True

def sign (negative : Bool) : Sign := if negative then .negative else .positive

/-- The parts as `Float32` has them: a mantissa of zero is a number apart. -/
def unpacked : SingleParts → UnpackedFloat
  | .finite negative mantissa exponent =>
    if h : 0 < mantissa then .finite (sign negative) mantissa exponent h else .zero (sign negative)
  | .infinite negative => .infinity (sign negative)
  | .notANumber => .notANumber

end SingleParts

namespace Single

def value (x : Single) : ℚ := x.parts.value

theorem stored_parts (x : Single) : x.parts.Stored := by
  have hfraction : x.fraction < 0x800000 := Nat.mod_lt _ (by decide)
  have hfield : x.exponentField < 0x100 := Nat.mod_lt _ (by decide)
  unfold parts
  dsimp only
  split
  · split <;> trivial
  · split
    · exact ⟨by omega, by omega, .inr rfl⟩
    · exact ⟨by omega, by omega, .inl (by omega)⟩

section Bits

variable (b : BitVec 32)

theorem toNat_unpackMantissa :
    (@unpackMantissa .binary32 b).toNat = b.toNat % 0x800000 := by
  simp [unpackMantissa]

theorem toNat_unpackExponent :
    (@unpackExponent .binary32 b).toNat = b.toNat / 0x800000 % 0x100 := by
  simp [unpackExponent, Nat.shiftRight_eq_div_pow]

theorem toNat_unpackSign : (@unpackSign .binary32 b).toNat = b.toNat / 0x80000000 := by
  have := b.isLt
  simp [unpackSign, Nat.shiftRight_eq_div_pow]
  omega

theorem ofBitVec_unpackSign : Sign.ofBitVec (@unpackSign .binary32 b) =
    SingleParts.sign (0x80000000 ≤ b.toNat) := by
  have hsign := toNat_unpackSign b
  have hlt := b.isLt
  unfold Sign.ofBitVec SingleParts.sign
  have hiff : @unpackSign .binary32 b = 0#1 ↔ ¬0x80000000 ≤ b.toNat := by
    rw [← BitVec.toNat_inj, hsign]
    simp
  by_cases h : 0x80000000 ≤ b.toNat <;> simp [hiff, h]

theorem toNat_cons_one {w : Nat} (v : BitVec w) : (1#1 ++ v).toNat = 2 ^ w + v.toNat := by
  rw [BitVec.toNat_append, ← Nat.shiftLeft_add_eq_or_of_lt v.isLt]
  simp [Nat.shiftLeft_eq]

end Bits

theorem unpack_bits (x : Single) : unpack .binary32 x.bits.toBitVec = x.parts.unpacked := by
  have hmantissa : (@unpackMantissa .binary32 x.bits.toBitVec).toNat = x.fraction :=
    toNat_unpackMantissa _
  have hexponent : (@unpackExponent .binary32 x.bits.toBitVec).toNat = x.exponentField :=
    toNat_unpackExponent _
  have hsign := ofBitVec_unpackSign x.bits.toBitVec
  have hones : @unpackExponent .binary32 x.bits.toBitVec = -1#_ ↔
      x.exponentField = 255 := by
    rw [← BitVec.toNat_inj, hexponent]
    rfl
  have hnone : @unpackExponent .binary32 x.bits.toBitVec = 0#_ ↔
      x.exponentField = 0 := by
    rw [← BitVec.toNat_inj, hexponent]
    rfl
  have hzero : @unpackMantissa .binary32 x.bits.toBitVec = 0#_ ↔ x.fraction = 0 := by
    rw [← BitVec.toNat_inj, hmantissa]
    rfl
  have hbias : ((Format.binary32.exponentBias : Nat) : Int) = 127 := rfl
  have hwidth : ((Format.binary32.mantissaBitsWithoutImplicit : Nat) : Int) = 23 := rfl
  unfold unpack parts
  simp only [hones, hnone, hzero, hsign, hmantissa, hexponent, toNat_cons_one, hbias, hwidth]
  split
  · split <;> rfl
  · split
    · split
      · rename_i hfraction
        simp [SingleParts.unpacked, hfraction]
      · rename_i hfield hfraction
        simp [SingleParts.unpacked, Nat.pos_of_ne_zero hfraction, hfield]
    · simp [SingleParts.unpacked]

end Single

namespace SingleParts

section Order

variable {m n : Nat} {d e : Int}

theorem compare_neg (a b : ℚ) : compare (-a) (-b) = (compare a b).swap := by
  rcases lt_trichotomy a b with h | rfl | h
  · rw [compare_lt_iff_lt.2 h, compare_gt_iff_gt.2 (neg_lt_neg h)]
    rfl
  · simp
  · rw [compare_gt_iff_gt.2 h, compare_lt_iff_lt.2 (neg_lt_neg h)]
    rfl

/-- The number of the greater exponent has its first bit set. -/
theorem magnitude_lt (hm : m < 0x1000000) (hd : -149 ≤ d) (hn : 0x800000 ≤ n ∨ e = -149)
    (h : d < e) : (m : ℚ) * 2 ^ d < n * 2 ^ e := by
  have hbit : 0x800000 ≤ n := hn.resolve_right (by omega)
  calc (m : ℚ) * 2 ^ d < 0x1000000 * 2 ^ d :=
        mul_lt_mul_of_pos_right (by exact_mod_cast hm) (zpow_pos two_pos d)
    _ = 0x800000 * 2 ^ (d + 1) := by
        rw [zpow_add_one₀ two_ne_zero]
        ring
    _ ≤ 0x800000 * 2 ^ e :=
        mul_le_mul_of_nonneg_left (zpow_le_zpow_right₀ one_le_two (by omega)) (by norm_num)
    _ ≤ n * 2 ^ e :=
        mul_le_mul_of_nonneg_right (by exact_mod_cast hbit) (zpow_pos two_pos e).le

theorem compare_magnitude (hm : m < 0x1000000) (hn : n < 0x1000000) (hd : -149 ≤ d)
    (he : -149 ≤ e) (hm' : 0x800000 ≤ m ∨ d = -149) (hn' : 0x800000 ≤ n ∨ e = -149) :
    (compare d e).then (compare m n) = compare ((m : ℚ) * 2 ^ d) (n * 2 ^ e) := by
  rcases lt_trichotomy d e with h | rfl | h
  · rw [compare_lt_iff_lt.2 h, compare_lt_iff_lt.2 (magnitude_lt hm hd hn' h)]
    rfl
  · have hscale : (0 : ℚ) < 2 ^ d := zpow_pos two_pos d
    rcases lt_trichotomy m n with h | rfl | h
    · rw [compare_lt_iff_lt.2 h, compare_lt_iff_lt.2
        (mul_lt_mul_of_pos_right (Nat.cast_lt.2 h) hscale), compare_eq_iff_eq.2 rfl]
      rfl
    · simp
    · rw [compare_gt_iff_gt.2 h, compare_gt_iff_gt.2
        (mul_lt_mul_of_pos_right (Nat.cast_lt.2 h) hscale), compare_eq_iff_eq.2 rfl]
      rfl
  · rw [compare_gt_iff_gt.2 h, compare_gt_iff_gt.2 (magnitude_lt hn he hm' h)]
    rfl

end Order

def isFinite : SingleParts → Bool
  | .finite .. => true
  | _ => false

theorem compare_unpacked {p q : SingleParts} (hp : p.Stored) (hq : q.Stored)
    (hfinite : p.isFinite) (hfinite' : q.isFinite) :
    p.unpacked.compare q.unpacked = some (compare p.value q.value) := by
  cases p with
  | notANumber => cases hfinite
  | infinite negative => cases hfinite
  | finite negative m d =>
    cases q with
    | notANumber => cases hfinite'
    | infinite negative => cases hfinite'
    | finite negative' n e =>
      obtain ⟨hm, hd, hm'⟩ := hp
      obtain ⟨hn, he, hn'⟩ := hq
      have hpositive {k : Nat} {c : Int} (hk : 0 < k) : (0 : ℚ) < k * 2 ^ c :=
        mul_pos (Nat.cast_pos.2 hk) (zpow_pos two_pos c)
      rcases Nat.eq_zero_or_pos m with rfl | hpos
      · rcases Nat.eq_zero_or_pos n with rfl | hpos'
        · cases negative <;> cases negative' <;> simp [unpacked, value, UnpackedFloat.compare]
        · have hlt := compare_lt_iff_lt.2 (hpositive (c := e) hpos')
          have hgt := compare_gt_iff_gt.2 (neg_neg_of_pos (hpositive (c := e) hpos'))
          cases negative' <;> simp [unpacked, value, sign, UnpackedFloat.compare, hpos', hlt, hgt]
      · rcases Nat.eq_zero_or_pos n with rfl | hpos'
        · have hgt := compare_gt_iff_gt.2 (hpositive (c := d) hpos)
          have hlt := compare_lt_iff_lt.2 (neg_neg_of_pos (hpositive (c := d) hpos))
          cases negative <;> simp [unpacked, value, sign, UnpackedFloat.compare, hpos, hlt, hgt]
        · have hsame := compare_magnitude hm hn hd he hm' hn'
          have hlt := compare_lt_iff_lt.2
            ((neg_neg_of_pos (hpositive (c := d) hpos)).trans (hpositive (c := e) hpos'))
          have hgt := compare_gt_iff_gt.2
            ((neg_neg_of_pos (hpositive (c := e) hpos')).trans (hpositive (c := d) hpos))
          cases negative <;> cases negative' <;>
            simp [unpacked, value, sign, UnpackedFloat.compare, compare_neg, *]

theorem compare_infinite {p : SingleParts} (h : p.isFinite) (negative : Bool) :
    p.unpacked.compare (infinite negative).unpacked = some (if negative then .gt else .lt) := by
  cases p with
  | notANumber => cases h
  | infinite _ => cases h
  | finite _ mantissa _ =>
    by_cases hpos : 0 < mantissa <;> cases negative <;>
      simp [unpacked, sign, UnpackedFloat.compare, hpos]

theorem infinite_compare {p : SingleParts} (h : p.isFinite) (negative : Bool) :
    (infinite negative).unpacked.compare p.unpacked = some (if negative then .lt else .gt) := by
  cases p with
  | notANumber => cases h
  | infinite _ => cases h
  | finite _ mantissa _ =>
    by_cases hpos : 0 < mantissa <;> cases negative <;>
      simp [unpacked, sign, UnpackedFloat.compare, hpos]

end SingleParts

namespace Single

variable {x y low high : Single}

theorem isFinite_parts (x : Single) : x.parts.isFinite = x.isFinite := by
  unfold parts isFinite
  dsimp only
  split
  · rename_i h
    split <;> simp [SingleParts.isFinite, h]
  · rename_i h
    split <;> simp [SingleParts.isFinite, h]

theorem unpack_toFloat32 (x : Single) : x.toFloat32.toModel.unpack = x.parts.unpacked := by
  change unpack .binary32 (UnpackedFloat.pack .binary32 (unpack .binary32 x.bits.toBitVec)) = _
  rw [pack_unpack, ← unpack_bits]
  split
  · rename_i hnan
    obtain ⟨hones, hrest⟩ := of_decide_eq_true hnan
    rw [unpack_packedNaN, unpack]
    simp only [hones, hrest, if_true, if_false]
  · rfl

theorem compare_finite (hx : x.isFinite) (hy : y.isFinite) :
    x.toFloat32.toModel.compare y.toFloat32.toModel = some (compare x.value y.value) := by
  change x.toFloat32.toModel.unpack.compare y.toFloat32.toModel.unpack = _
  rw [unpack_toFloat32, unpack_toFloat32]
  exact SingleParts.compare_unpacked x.stored_parts y.stored_parts
    (x.isFinite_parts.trans hx) (y.isFinite_parts.trans hy)

theorem lt_iff_compare :
    x < y ↔ x.toFloat32.toModel.compare y.toFloat32.toModel = some .lt := by
  change decide (x.toFloat32.toModel < y.toFloat32.toModel) = true ↔ _
  rw [decide_eq_true_iff]
  exact beq_iff_eq

theorem le_iff_compare :
    x ≤ y ↔ (x.toFloat32.toModel.compare y.toFloat32.toModel).any (·.isLE) := by
  change decide (x.toFloat32.toModel ≤ y.toFloat32.toModel) = true ↔ _
  rw [decide_eq_true_iff]
  exact Iff.rfl

theorem lt_iff_value_lt (hx : x.isFinite) (hy : y.isFinite) : x < y ↔ x.value < y.value := by
  rw [lt_iff_compare, compare_finite hx hy, Option.some_inj, compare_lt_iff_lt]

theorem le_iff_value_le (hx : x.isFinite) (hy : y.isFinite) : x ≤ y ↔ x.value ≤ y.value := by
  rw [le_iff_compare, compare_finite hx hy, Option.any_some, ← Ordering.ne_gt_iff_isLE]
  exact compare_le_iff_le

/-- What lies between finite numbers is finite: no NaN is compared, and the infinite numbers lie
outside. -/
theorem isFinite_of_between (hlow : low.isFinite) (hhigh : high.isFinite) (h : low ≤ x)
    (h' : x ≤ high) : x.isFinite := by
  rw [le_iff_compare] at h h'
  change Option.any _ (low.toFloat32.toModel.unpack.compare x.toFloat32.toModel.unpack) at h
  change Option.any _ (x.toFloat32.toModel.unpack.compare high.toFloat32.toModel.unpack) at h'
  rw [unpack_toFloat32, unpack_toFloat32] at h h'
  rw [← isFinite_parts] at hlow hhigh ⊢
  cases hparts : x.parts with
  | finite => rfl
  | notANumber =>
    rw [hparts] at h'
    cases h'
  | infinite negative =>
    rw [hparts] at h h'
    rw [SingleParts.compare_infinite hlow] at h
    rw [SingleParts.infinite_compare hhigh] at h'
    cases negative
    · cases h'
    · cases h

section Patterns

variable {x y : Single} {m n : Nat} {d e : Int}

/-- The place of a pattern among all patterns: those with a sign come before the others, and in
reverse. -/
def rank (x : Single) : Int :=
  if x.bits.toNat < 0x80000000 then x.bits.toNat else 0x7FFFFFFF - x.bits.toNat

theorem bits_lt_of_parts (h : x.parts = .finite false m d) : x.bits.toNat < 0x80000000 := by
  unfold parts at h
  dsimp only at h
  split at h
  · split at h <;> cases h
  · split at h <;> simp only [SingleParts.finite.injEq, decide_eq_false_iff_not] at h <;> omega

theorem lex_of_bits_lt (hx : x.parts = .finite false m d) (hy : y.parts = .finite false n e)
    (h : x.bits.toNat < y.bits.toNat) : d < e ∨ d = e ∧ m < n := by
  unfold parts exponentField fraction at hx hy
  dsimp only at hx hy
  split at hx
  · split at hx <;> cases hx
  · split at hy
    · split at hy <;> cases hy
    · split at hx <;> split at hy <;>
        simp only [SingleParts.finite.injEq, decide_eq_false_iff_not] at hx hy <;> omega

theorem exists_parts_of_value_pos (h : 0 < x.value) : ∃ m d, x.parts = .finite false m d := by
  unfold value at h
  cases hparts : x.parts with
  | infinite _ =>
    rw [hparts] at h
    exact absurd h (lt_irrefl 0)
  | notANumber =>
    rw [hparts] at h
    exact absurd h (lt_irrefl 0)
  | finite negative m d =>
    cases negative with
    | false => exact ⟨m, d, rfl⟩
    | true =>
      have hmagnitude : (0 : ℚ) ≤ m * 2 ^ d := mul_nonneg m.cast_nonneg (zpow_pos two_pos d).le
      rw [hparts] at h
      simp only [SingleParts.value, if_true] at h
      linarith

theorem value_lt_of_bits_lt (hx : 0 < x.value) (hy : 0 < y.value)
    (h : x.bits.toNat < y.bits.toNat) : x.value < y.value := by
  obtain ⟨m, d, hparts⟩ := exists_parts_of_value_pos hx
  obtain ⟨n, e, hparts'⟩ := exists_parts_of_value_pos hy
  have hstored := x.stored_parts
  have hstored' := y.stored_parts
  rw [hparts] at hstored
  rw [hparts'] at hstored'
  rw [value, value, hparts, hparts']
  simp only [SingleParts.value, if_false, one_mul, Bool.false_eq_true]
  rcases lex_of_bits_lt hparts hparts' h with hlt | ⟨rfl, hlt⟩
  · exact SingleParts.magnitude_lt hstored.1 hstored.2.1 hstored'.2.2 hlt
  · exact mul_lt_mul_of_pos_right (Nat.cast_lt.2 hlt) (zpow_pos two_pos d)

theorem value_le_iff_rank_le (hx : 0 < x.value) (hy : 0 < y.value) :
    x.value ≤ y.value ↔ x.rank ≤ y.rank := by
  obtain ⟨_, _, hparts⟩ := exists_parts_of_value_pos hx
  obtain ⟨_, _, hparts'⟩ := exists_parts_of_value_pos hy
  rw [rank, rank, if_pos (bits_lt_of_parts hparts), if_pos (bits_lt_of_parts hparts'),
    Nat.cast_le]
  constructor
  · intro h
    by_contra hlt
    exact absurd h (not_le.2 (value_lt_of_bits_lt hy hx (not_le.1 hlt)))
  · intro h
    rcases h.lt_or_eq with hlt | heq
    · exact (value_lt_of_bits_lt hx hy hlt).le
    · have hsame : x = y := congrArg mk (UInt32.toNat_inj.1 heq)
      rw [hsame]

end Patterns

end Single

end Timbre
