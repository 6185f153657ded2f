import Mathlib.Data.Rat.Floor
import Mathlib.Tactic.Ring
import Timbre.Kernel.FilterBank
import Timbre.Proofs.Number.Exact

/-! # Shapes of triangular filters

In exact arithmetic the feet and the centre of each filter are three consecutive places of one
increasing row of places. A filter covers the points between its feet, or the point nearest to its
centre if there is none; a place behind the last point counts as the last point. Whichever it is,
the filter starts no later than at the first point from its centre on and no later than at the point
nearest to its right foot, and the next filter starts at one of these two; stops are alike. Main
statement: `triangles_filters`.
-/
namespace Timbre.FilterBank

variable {K : Type} [Field K] [LinearOrder K]

/-- A unit of a scale that belongs to a positive frequency. -/
structure Scale.Reaches (scale : Scale K) (v : K) : Prop where
  toHz_pos : 0 < scale.toHz v
  fromHz_toHz : scale.fromHz (scale.toHz v) = v

/-- What is asked of a frequency scale: the units grow with the positive frequencies, and the two
directions are inverse, on these frequencies and on the units between those of two of them. -/
structure Scale.Increasing (scale : Scale K) : Prop where
  fromHz_lt : ∀ f g, 0 < f → f < g → scale.fromHz f < scale.fromHz g
  toHz_fromHz : ∀ f, 0 < f → scale.toHz (scale.fromHz f) = f
  reaches : ∀ f g v, 0 < f → 0 < g → scale.fromHz f ≤ v → v ≤ scale.fromHz g → scale.Reaches v

namespace Scale

variable {scale : Scale K} {f g v w : K}

theorem Increasing.fromHz_le (h : scale.Increasing) (hf : 0 < f) (hfg : f ≤ g) :
    scale.fromHz f ≤ scale.fromHz g := by
  rcases hfg.eq_or_lt with rfl | hlt
  · exact le_rfl
  · exact (h.fromHz_lt f g hf hlt).le

theorem Increasing.toHz_le (h : scale.Increasing) (hv : scale.Reaches v) (hw : scale.Reaches w)
    (hvw : v ≤ w) : scale.toHz v ≤ scale.toHz w := by
  by_contra hlt
  have hback := h.fromHz_lt _ _ hw.toHz_pos (not_le.1 hlt)
  rw [hv.fromHz_toHz, hw.fromHz_toHz] at hback
  exact absurd hvw (not_le.2 hback)

theorem increasing_linear : (linear K).Increasing where
  fromHz_lt _ _ _ h := h
  toHz_fromHz _ _ := rfl
  reaches _ _ _ hf _ hv _ := ⟨hf.trans_le hv, rfl⟩

end Scale

/-- The shape of a filter over a spectrum of `size` points. -/
structure Filter.Triangle (size : Nat) (f : Filter K) : Prop where
  start_le : f.start ≤ f.stop
  stop_lt : f.stop < size
  size_eq : f.weights.size = f.stop - f.start + 1
  unit : ∀ w ∈ f.weights, 0 ≤ w ∧ w ≤ 1
  one_mem : 1 ∈ f.weights

variable [FloorRing K]

section Points

variable {size : Nat} {a b c d : K}

theorem clampPoint_eq (size : Nat) (x : K) :
    clampPoint size x = min (Rounding.toNat x) (size - 1) := rfl

theorem clampPoint_lt_size (hsize : 1 ≤ size) (x : K) : clampPoint size x < size := by
  have hlast : clampPoint size x ≤ size - 1 := Nat.min_le_right _ _
  omega

/-- The first and the last point of a filter with its feet at `a` and `c` and its centre at `b`. -/
def reach (size : Nat) (a b c : K) : Nat × Nat :=
  let left := clampPoint size (Rounding.ceil a)
  let right := clampPoint size (Rounding.floor c)
  let nearest := clampPoint size (Rounding.round b)
  if right < left then (nearest, nearest) else (left, right)

theorem reach_le (size : Nat) (a b c : K) : (reach size a b c).1 ≤ (reach size a b c).2 := by
  unfold reach
  dsimp only
  split
  · exact Nat.le_refl _
  · rename_i hle
    exact Nat.not_lt.1 hle

theorem reach_lt (hsize : 1 ≤ size) (a b c : K) : (reach size a b c).2 < size := by
  unfold reach
  dsimp only
  split
  · exact clampPoint_lt_size hsize _
  · exact clampPoint_lt_size hsize _

variable [IsStrictOrderedRing K]

theorem clampPoint_floor_mono (h : a ≤ b) :
    clampPoint size (Rounding.floor a) ≤ clampPoint size (Rounding.floor b) := by
  simp only [clampPoint_eq, toNat_floor]
  exact min_le_min_right _ (Nat.floor_mono h)

theorem clampPoint_ceil_mono (h : a ≤ b) :
    clampPoint size (Rounding.ceil a) ≤ clampPoint size (Rounding.ceil b) := by
  simp only [clampPoint_eq, toNat_ceil]
  exact min_le_min_right _ (Nat.ceil_mono h)

theorem clampPoint_round_mono (ha : 0 ≤ a) (h : a ≤ b) :
    clampPoint size (Rounding.round a) ≤ clampPoint size (Rounding.round b) :=
  min_le_min_right _ (toNat_round_mono ha h)

theorem clampPoint_floor_le_round (ha : 0 ≤ a) :
    clampPoint size (Rounding.floor a) ≤ clampPoint size (Rounding.round a) := by
  simp only [clampPoint_eq, toNat_floor]
  exact min_le_min_right _ (floor_le_toNat_round ha)

theorem clampPoint_round_le_ceil (ha : 0 ≤ a) :
    clampPoint size (Rounding.round a) ≤ clampPoint size (Rounding.ceil a) := by
  simp only [clampPoint_eq, toNat_ceil]
  exact min_le_min_right _ (toNat_round_le_ceil ha)

/-- A filter starts at a point that the one after it may start at, or before it. -/
theorem reach_start_le (size : Nat) (ha : 0 ≤ a) (hab : a ≤ b) (hbc : b ≤ c) :
    (reach size a b c).1 ≤ clampPoint size (Rounding.ceil b) ∧
      (reach size a b c).1 ≤ clampPoint size (Rounding.round c) := by
  have hb : 0 ≤ b := ha.trans hab
  unfold reach
  dsimp only
  split
  · exact ⟨clampPoint_round_le_ceil hb, clampPoint_round_mono hb hbc⟩
  · rename_i hle
    exact ⟨clampPoint_ceil_mono hab,
      (Nat.not_lt.1 hle).trans (clampPoint_floor_le_round (hb.trans hbc))⟩

/-- A filter stops at a point that the one before it may stop at, or behind it. -/
theorem le_reach_stop (size : Nat) (ha : 0 ≤ a) (hab : a ≤ b) (hbc : b ≤ c) :
    clampPoint size (Rounding.floor b) ≤ (reach size a b c).2 ∧
      clampPoint size (Rounding.round a) ≤ (reach size a b c).2 := by
  unfold reach
  dsimp only
  split
  · exact ⟨clampPoint_floor_le_round (ha.trans hab), clampPoint_round_mono ha hab⟩
  · rename_i hle
    exact ⟨clampPoint_floor_mono hbc, (clampPoint_round_le_ceil ha).trans (Nat.not_lt.1 hle)⟩

theorem reach_mono (size : Nat) (ha : 0 ≤ a) (hab : a ≤ b) (hbc : b ≤ c) (hcd : c ≤ d) :
    (reach size a b c).1 ≤ (reach size b c d).1 ∧
      (reach size a b c).2 ≤ (reach size b c d).2 := by
  obtain ⟨hceil, hnearest⟩ := reach_start_le size ha hab hbc
  obtain ⟨hfloor, hnearest'⟩ := le_reach_stop size (ha.trans hab) hbc hcd
  constructor
  · conv_rhs => unfold reach
    dsimp only
    split
    · exact hnearest
    · exact hceil
  · conv_lhs => unfold reach
    dsimp only
    split
    · exact hnearest'
    · exact hfloor

end Points

section Heights

variable {scale : Scale K} {center halfWidth df place : K} {size point : Nat}

/-- The places of a filter, in points that stand `df` Hz apart. -/
def reachAt (scale : Scale K) (center halfWidth : K) (size : Nat) (df : K) : Nat × Nat :=
  reach size (scale.toHz (center - halfWidth) / df) (scale.toHz center / df)
    (scale.toHz (center + halfWidth) / df)

theorem exists_span_eq (scale : Scale K) (center halfWidth : K) (size : Nat) (df : K) :
    ∃ place, span scale center halfWidth size df =
        ((reachAt scale center halfWidth size df).1, (reachAt scale center halfWidth size df).2,
          place) ∧
      ((reachAt scale center halfWidth size df).1 < (reachAt scale center halfWidth size df).2 →
        place = scale.toHz center / df) := by
  unfold span reachAt reach
  dsimp only
  split
  · exact ⟨_, rfl, fun hlt => absurd hlt (Nat.lt_irrefl _)⟩
  · exact ⟨_, rfl, fun _ => rfl⟩

def peakPoint (left right : Nat) (place : K) : Nat :=
  max left (min right (Rounding.toNat (Rounding.round place)))

def heights (scale : Scale K) (center halfWidth df : K) (left right : Nat) (place : K) : Array K :=
  Array.ofFn fun i : Fin (right - left + 1) =>
    if left + i.val = peakPoint left right place then 1
    else height scale center halfWidth df place (left + i.val)

theorem triangular_eq (squared : Bool) {left right : Nat}
    (hspan : span scale center halfWidth size df = (left, right, place)) :
    Filter.triangular scale squared center halfWidth size df =
      ⟨left, right, if squared then
        (heights scale center halfWidth df left right place).map fun w => w * w
      else heights scale center halfWidth df left right place⟩ := by
  unfold Filter.triangular
  rw [hspan]
  rfl

theorem reachAt_triangular (scale : Scale K) (squared : Bool) (center halfWidth : K) (size : Nat)
    (df : K) : ((Filter.triangular scale squared center halfWidth size df).start,
      (Filter.triangular scale squared center halfWidth size df).stop) =
        reachAt scale center halfWidth size df := by
  obtain ⟨place, hspan, -⟩ := exists_span_eq scale center halfWidth size df
  rw [triangular_eq squared hspan]

theorem one_mem_heights {left right : Nat} (hle : left ≤ right) :
    1 ∈ heights scale center halfWidth df left right place := by
  have hpeak : peakPoint left right place - left < right - left + 1 := by
    unfold peakPoint
    omega
  have hplace : left + (peakPoint left right place - left) = peakPoint left right place := by
    unfold peakPoint
    omega
  exact Array.mem_ofFn.2 ⟨⟨_, hpeak⟩, if_pos hplace⟩

/-- One point has weight one, and the others have the height of the triangle; a filter of one point
has no others. -/
theorem heights_mem {left right : Nat} (hunit : left < right → ∀ point, left ≤ point →
      point ≤ right → 0 ≤ height scale center halfWidth df place point ∧
        height scale center halfWidth df place point ≤ 1) :
    ∀ w ∈ heights scale center halfWidth df left right place, 0 ≤ w ∧ w ≤ 1 := by
  intro w hw
  obtain ⟨i, rfl⟩ := Array.mem_ofFn.1 hw
  split
  · exact ⟨zero_le_one, le_rfl⟩
  · rename_i hpeak
    unfold peakPoint at hpeak
    exact hunit (by omega) _ (by omega) (by omega)

variable [IsStrictOrderedRing K]

theorem between_feet {a b c : K} (hc : 0 ≤ c) (hstart : (reach size a b c).1 ≤ point)
    (hstop : point ≤ (reach size a b c).2) (hlt : (reach size a b c).1 < (reach size a b c).2) :
    a ≤ point ∧ (point : K) ≤ c := by
  unfold reach at hstart hstop hlt
  dsimp only at hstart hstop hlt
  split at hlt
  · exact absurd hlt (Nat.lt_irrefl _)
  · rename_i hle
    rw [if_neg hle] at hstart hstop
    simp only [clampPoint_eq, toNat_ceil, toNat_floor] at hstart hstop hlt
    have hceil : ⌈a⌉₊ ≤ point := by omega
    have hfloor : point ≤ ⌊c⌋₊ := by omega
    exact ⟨Nat.ceil_le.1 hceil, (Nat.le_floor_iff hc).1 hfloor⟩

theorem height_mem (hscale : scale.Increasing) (hwidth : 0 < halfWidth) (hdf : 0 < df)
    (hlow : scale.Reaches (center - halfWidth)) (hmiddle : scale.Reaches center)
    (hhigh : scale.Reaches (center + halfWidth))
    (hstart : scale.toHz (center - halfWidth) / df ≤ point)
    (hstop : (point : K) ≤ scale.toHz (center + halfWidth) / df) :
    0 ≤ height scale center halfWidth df (scale.toHz center / df) point ∧
      height scale center halfWidth df (scale.toHz center / df) point ≤ 1 := by
  rw [div_le_iff₀ hdf] at hstart
  rw [le_div_iff₀ hdf] at hstop
  have hpoint : 0 < point * df := hlow.toHz_pos.trans_le hstart
  have hbelow : center - halfWidth ≤ scale.fromHz (point * df) :=
    hlow.fromHz_toHz ▸ hscale.fromHz_le hlow.toHz_pos hstart
  have habove : scale.fromHz (point * df) ≤ center + halfWidth :=
    hhigh.fromHz_toHz ▸ hscale.fromHz_le hpoint hstop
  unfold height
  dsimp only
  split
  · rename_i hside
    rw [le_div_iff₀ hdf] at hside
    have hside : scale.fromHz (point * df) ≤ center :=
      hmiddle.fromHz_toHz ▸ hscale.fromHz_le hpoint hside
    have hzero : 0 ≤ (center - scale.fromHz (point * df)) / halfWidth :=
      div_nonneg (by linarith) hwidth.le
    have hone : (center - scale.fromHz (point * df)) / halfWidth ≤ 1 :=
      (div_le_one hwidth).2 (by linarith)
    constructor <;> linarith
  · rename_i hside
    rw [not_le, div_lt_iff₀ hdf] at hside
    have hside : center ≤ scale.fromHz (point * df) :=
      hmiddle.fromHz_toHz ▸ hscale.fromHz_le hmiddle.toHz_pos hside.le
    have hzero : (center - scale.fromHz (point * df)) / halfWidth ≤ 0 :=
      div_nonpos_of_nonpos_of_nonneg (by linarith) hwidth.le
    have hone : -1 ≤ (center - scale.fromHz (point * df)) / halfWidth :=
      (le_div_iff₀ hwidth).2 (by linarith)
    constructor <;> linarith

theorem triangle_of_heights {left right : Nat} (squared : Bool)
    (hspan : span scale center halfWidth size df = (left, right, place)) (hle : left ≤ right)
    (hlt : right < size)
    (hunit : ∀ w ∈ heights scale center halfWidth df left right place, 0 ≤ w ∧ w ≤ 1) :
    (Filter.triangular scale squared center halfWidth size df).Triangle size := by
  have hone : 1 ∈ heights scale center halfWidth df left right place := one_mem_heights hle
  rw [triangular_eq squared hspan]
  cases squared with
  | false => exact ⟨hle, hlt, Array.size_ofFn, hunit, hone⟩
  | true =>
    refine ⟨hle, hlt, (Array.size_map ..).trans Array.size_ofFn, ?_, ?_⟩
    · intro w hw
      obtain ⟨v, hv, rfl⟩ := Array.mem_map.1 hw
      obtain ⟨hzero, hone⟩ := hunit v hv
      exact ⟨mul_nonneg hzero hzero, mul_le_one₀ hone hzero hone⟩
    · exact Array.mem_map.2 ⟨1, hone, mul_one 1⟩

theorem triangle_triangular (hscale : scale.Increasing) (squared : Bool) (hwidth : 0 < halfWidth)
    (hsize : 1 ≤ size) (hdf : 0 < df) (hlow : scale.Reaches (center - halfWidth))
    (hmiddle : scale.Reaches center) (hhigh : scale.Reaches (center + halfWidth)) :
    (Filter.triangular scale squared center halfWidth size df).Triangle size := by
  obtain ⟨place, hspan, hplace⟩ := exists_span_eq scale center halfWidth size df
  refine triangle_of_heights squared hspan (reach_le _ _ _ _) (reach_lt hsize _ _ _)
    (heights_mem fun hlt point hstart hstop => ?_)
  obtain ⟨hfoot, hfoot'⟩ := between_feet (div_nonneg hhigh.toHz_pos.le hdf.le) hstart hstop hlt
  rw [hplace hlt]
  exact height_mem hscale hwidth hdf hlow hmiddle hhigh hfoot hfoot'

end Heights

section Units

variable {scale : Scale K} {number size : Nat} {rate low high df : K}

def stepOf (scale : Scale K) (number : Nat) (low high : K) : K :=
  (scale.fromHz high - scale.fromHz low) / ((number + 1 : Nat) : K)

/-- The units of the feet and centres, from the lowest frequency to the highest. -/
def unitAt (scale : Scale K) (number : Nat) (low high : K) (j : Nat) : K :=
  scale.fromHz low + stepOf scale number low high * (j : K)

/-- The places of the feet and centres, in points that stand `df` Hz apart. -/
def placeAt (scale : Scale K) (number : Nat) (low high df : K) (j : Nat) : K :=
  scale.toHz (unitAt scale number low high j) / df

omit [LinearOrder K] [FloorRing K] in
theorem unitAt_succ (scale : Scale K) (number : Nat) (low high : K) (j : Nat) :
    unitAt scale number low high (j + 1) =
      unitAt scale number low high j + stepOf scale number low high := by
  unfold unitAt
  push_cast
  ring

omit [LinearOrder K] [FloorRing K] in
theorem unitAt_sub_stepOf (scale : Scale K) (number : Nat) (low high : K) (j : Nat) :
    unitAt scale number low high (j + 1) - stepOf scale number low high =
      unitAt scale number low high j := by
  rw [unitAt_succ, add_sub_cancel_right]

theorem reachAt_unitAt (scale : Scale K) (number size : Nat) (low high df : K) (i : Nat) :
    reachAt scale (unitAt scale number low high (i + 1)) (stepOf scale number low high) size df =
      reach size (placeAt scale number low high df i) (placeAt scale number low high df (i + 1))
        (placeAt scale number low high df (i + 2)) := by
  rw [reachAt, unitAt_sub_stepOf, ← unitAt_succ]
  rfl

theorem exists_of_getElem?_filters {squared : Bool} {i : Nat} {f : Filter K}
    (hf : (filters scale squared number size rate low high)[i]? = some f) :
    i < number ∧ f = .triangular scale squared (unitAt scale number low high (i + 1))
      (stepOf scale number low high) size (rate / ((2 * size : Nat) : K)) := by
  rw [filters, Array.getElem?_ofFn] at hf
  split at hf
  · rename_i hi
    exact ⟨hi, (Option.some_inj.1 hf).symm⟩
  · cases hf

theorem reach_of_getElem?_filters {squared : Bool} {i : Nat} {f : Filter K}
    (hf : (filters scale squared number size rate low high)[i]? = some f) :
    (f.start, f.stop) =
      reach size (placeAt scale number low high (rate / ((2 * size : Nat) : K)) i)
        (placeAt scale number low high (rate / ((2 * size : Nat) : K)) (i + 1))
        (placeAt scale number low high (rate / ((2 * size : Nat) : K)) (i + 2)) := by
  obtain ⟨-, rfl⟩ := exists_of_getElem?_filters hf
  rw [reachAt_triangular, reachAt_unitAt]

variable [IsStrictOrderedRing K]

omit [FloorRing K] in
theorem stepOf_pos (hscale : scale.Increasing) (hlow : 0 < low) (hhigh : low < high)
    (number : Nat) : 0 < stepOf scale number low high :=
  div_pos (sub_pos.2 (hscale.fromHz_lt low high hlow hhigh)) (Nat.cast_pos.2 number.succ_pos)

theorem reaches_unitAt (hscale : scale.Increasing) (hlow : 0 < low) (hhigh : low < high)
    {j : Nat} (hj : j ≤ number + 1) : scale.Reaches (unitAt scale number low high j) := by
  have hstep := (stepOf_pos hscale hlow hhigh number).le
  have hall : stepOf scale number low high * ((number + 1 : Nat) : K) =
      scale.fromHz high - scale.fromHz low :=
    div_mul_cancel₀ _ (Nat.cast_ne_zero.2 number.succ_ne_zero)
  have hsome : stepOf scale number low high * (j : K) ≤
      stepOf scale number low high * ((number + 1 : Nat) : K) :=
    mul_le_mul_of_nonneg_left (Nat.cast_le.2 hj) hstep
  have hnone : 0 ≤ stepOf scale number low high * (j : K) := mul_nonneg hstep (Nat.cast_nonneg j)
  refine hscale.reaches low high _ hlow (hlow.trans hhigh) ?_ ?_
  · unfold unitAt
    linarith
  · unfold unitAt
    linarith

theorem placeAt_nonneg (hscale : scale.Increasing) (hlow : 0 < low) (hhigh : low < high)
    (hdf : 0 < df) {j : Nat} (hj : j ≤ number + 1) : 0 ≤ placeAt scale number low high df j :=
  div_nonneg (reaches_unitAt hscale hlow hhigh hj).toHz_pos.le hdf.le

theorem placeAt_le_succ (hscale : scale.Increasing) (hlow : 0 < low) (hhigh : low < high)
    (hdf : 0 < df) {j : Nat} (hj : j ≤ number) :
    placeAt scale number low high df j ≤ placeAt scale number low high df (j + 1) := by
  refine div_le_div_of_nonneg_right (hscale.toHz_le (reaches_unitAt hscale hlow hhigh (by omega))
    (reaches_unitAt hscale hlow hhigh (by omega)) ?_) hdf.le
  rw [unitAt_succ]
  exact le_add_of_nonneg_right (stepOf_pos hscale hlow hhigh number).le

end Units

section Bank

variable [IsStrictOrderedRing K] {scale : Scale K} {number size : Nat} {rate low high : K}

theorem triangle_of_mem_filters (hscale : scale.Increasing) (hsize : 1 ≤ size) (hlow : 0 < low)
    (hhigh : low < high) (hdf : 0 < rate / ((2 * size : Nat) : K)) {squared : Bool} {f : Filter K}
    (hf : f ∈ filters scale squared number size rate low high) : f.Triangle size := by
  obtain ⟨i, hi⟩ := Array.getElem?_of_mem hf
  obtain ⟨hi, rfl⟩ := exists_of_getElem?_filters hi
  refine triangle_triangular hscale squared (stepOf_pos hscale hlow hhigh number) hsize hdf ?_
    (reaches_unitAt hscale hlow hhigh (by omega)) ?_
  · rw [unitAt_sub_stepOf]
    exact reaches_unitAt hscale hlow hhigh (by omega)
  · rw [← unitAt_succ]
    exact reaches_unitAt hscale hlow hhigh (by omega)

/-- In exact arithmetic every filter of a bank, over whatever scale, lies within the spectrum from
its first point to its last, has as many weights as points, all of them from zero to one and one of
them one; and of two consecutive filters the second neither starts nor stops first. -/
theorem triangles_filters (hscale : scale.Increasing) (squared : Bool) (number : Nat)
    (hsize : 1 ≤ size) (hlow : 0 < low) (hhigh : low < high) (hnyquist : high ≤ rate / 2) :
    (filters scale squared number size rate low high).size = number ∧
      (∀ f ∈ filters scale squared number size rate low high, f.Triangle size) ∧
      ∀ (i : Nat) f g, (filters scale squared number size rate low high)[i]? = some f →
        (filters scale squared number size rate low high)[i + 1]? = some g →
          f.start ≤ g.start ∧ f.stop ≤ g.stop := by
  have hdf : 0 < rate / ((2 * size : Nat) : K) :=
    div_pos (by linarith) (Nat.cast_pos.2 (by omega))
  refine ⟨Array.size_ofFn, fun f hf => triangle_of_mem_filters hscale hsize hlow hhigh hdf hf,
    fun i f g hf hg => ?_⟩
  obtain ⟨hnext, -⟩ := exists_of_getElem?_filters hg
  have hplace : i ≤ number + 1 := by omega
  have hmono := reach_mono size (placeAt_nonneg hscale hlow hhigh hdf hplace)
    (placeAt_le_succ hscale hlow hhigh hdf (by omega))
    (placeAt_le_succ hscale hlow hhigh hdf (by omega))
    (placeAt_le_succ hscale hlow hhigh hdf (by omega))
  rw [← reach_of_getElem?_filters hf, ← reach_of_getElem?_filters hg] at hmono
  exact hmono

end Bank

/-- Eight filters over four points; there is no point between the feet of the first. -/
theorem triangles_filters_eight : ∃ bank : Array (Filter ℚ),
    bank = filters (Scale.linear ℚ) true 8 4 16 (1 / 10) 8 ∧ bank.size = 8 ∧
      (∀ f ∈ bank, f.Triangle 4) ∧ ∀ (i : Nat) f g, bank[i]? = some f → bank[i + 1]? = some g →
        f.start ≤ g.start ∧ f.stop ≤ g.stop := by
  have hlow : (0 : ℚ) < 1 / 10 := by norm_num
  have hhigh : (1 / 10 : ℚ) < 8 := by norm_num
  have hnyquist : (8 : ℚ) ≤ 16 / 2 := by norm_num
  exact ⟨_, rfl, triangles_filters Scale.increasing_linear true 8 (by decide : 1 ≤ 4) hlow hhigh
    hnyquist⟩

end Timbre.FilterBank
