import Mathlib.Algebra.BigOperators.Fin
import Mathlib.Algebra.Field.Rat
import Mathlib.Data.Rat.Cast.CharZero
import Mathlib.Tactic.FieldSimp
import Mathlib.Tactic.Ring
import Timbre.Proofs.Kernel.Inversion

/-! # Lags of a signal

What two transforms with the squares between them give is a correlation in the circle of the buffer.
The signal has zeros behind it, as many as it has samples but one at the least, so a product of two
samples that reaches around the end has a zero among its factors. What is left at a lag is the sum
over the pairs of samples that lie so far apart, and both halves of the output read it at the same
place. Main statement: `correlate_lags`.
-/
namespace Timbre.Autocorrelation

section Circle

variable {R : Type} [Semiring R] {v : Nat → R} {n size : Nat}

/-- No pair reaches around the end of a circle that is large enough for the values and zeros. -/
theorem sum_circle (hzero : ∀ i, size ≤ i → v i = 0) {lag : Nat} (hlag : lag < size)
    (hroom : size * 2 - 1 ≤ n) :
    ∑ i ∈ Finset.range n, v i * v ((i + lag) % n) =
      ∑ i ∈ Finset.range (size - lag), v i * v (i + lag) := by
  have hsubset : Finset.range (size - lag) ⊆ Finset.range n :=
    Finset.range_subset_range.2 (by omega)
  have hpairs : ∑ i ∈ Finset.range (size - lag), v i * v ((i + lag) % n) =
      ∑ i ∈ Finset.range (size - lag), v i * v (i + lag) := by
    refine Finset.sum_congr rfl fun i hi => ?_
    have hlt := Finset.mem_range.1 hi
    rw [Nat.mod_eq_of_lt (by omega)]
  rw [← hpairs]
  refine (Finset.sum_subset hsubset fun i hi hout => ?_).symm
  have hi := Finset.mem_range.1 hi
  have hout : size - lag ≤ i := Nat.not_lt.1 fun h => hout (Finset.mem_range.2 h)
  by_cases hbehind : size ≤ i
  · rw [hzero i hbehind, zero_mul]
  · rw [Nat.mod_eq_of_lt (by omega), hzero (i + lag) (by omega), mul_zero]

end Circle

section Places

variable {size l : Nat}

theorem lag_add (hl : l < size) : lag size (size - 1 + l) = l := by
  unfold lag
  split <;> omega

theorem lag_sub (hl : l < size) : lag size (size - 1 - l) = l := by
  rw [lag, if_pos (Nat.sub_le _ _)]
  omega

end Places

section Exact

variable {α K : Type} [Field K] {transform : Array (Bin K) → Array (Bin K)} {n : Nat}

/-- What is asked of a transform of one length: twice, with the squares in between, it takes every
real signal to its correlation in a circle, times the length. -/
def Correlates (transform : Array (Bin K) → Array (Bin K)) (n : Nat) : Prop :=
  ∀ v : Nat → K, correlation transform (Array.ofFn fun i : Fin n => v i) =
    Array.ofFn fun l : Fin n =>
      .ofReal ((n : K) * ∑ i ∈ Finset.range n, v i * v ((i + l) % n))

theorem correlates_four : Correlates (K := K) (Fourier.four .forward) 4 := by
  intro v
  have hfour {β : Type} (g : Nat → β) :
      (Array.ofFn fun i : Fin 4 => g i) = #[g 0, g 1, g 2, g 3] := rfl
  have hpower (a b c d : K) : (#[⟨a, 0⟩, ⟨b, c⟩, ⟨d, 0⟩, ⟨b, -c⟩] : Array (Bin K)).map
      (fun z => Bin.ofReal z.normSq) =
        #[a * a, b * b + c * c, d * d, b * b + c * c].map .ofReal := by
    simp [Bin.normSq]
  have hback : v 1 - v 3 = -(v 3 - v 1) := by ring
  have hcircle := hfour fun l =>
    Bin.ofReal (((4 : Nat) : K) * ∑ i ∈ Finset.range 4, v i * v ((i + l) % 4))
  rw [correlation, hfour, Spectrum.four_ofReal, hback, hpower, Spectrum.four_ofReal, hcircle]
  simp [Finset.sum_range_succ, Bin.ofReal]
  refine ⟨?_, ?_, ?_, ?_⟩ <;> ring

/-- The sum over the pairs of samples that lie so many places apart. -/
def lagSum (widen : α → K) (xs : Array α) (l : Nat) : K :=
  ∑ i : Fin (xs.size - l), widen xs[i.val] * widen xs[i.val + l]

variable (widen : α → K) (narrow : K → α) {xs : Array α}

theorem lagSum_eq (xs : Array α) (l : Nat) : lagSum widen xs l =
    ∑ i ∈ Finset.range (xs.size - l),
      (xs[i]?.map widen).getD 0 * (xs[i + l]?.map widen).getD 0 := by
  rw [Finset.sum_range, lagSum]
  refine Finset.sum_congr rfl fun i _ => ?_
  have hi : i.val + l < xs.size := by omega
  simp [hi, Nat.lt_of_le_of_lt (Nat.le_add_right _ _) hi]

theorem correlation_padded (h : Correlates transform n) (hroom : xs.size * 2 - 1 ≤ n) {l : Nat}
    (hl : l < xs.size) : binAt (correlation transform (padded widen n xs)) l =
      .ofReal (n * lagSum widen xs l) := by
  have hzero (i : Nat) (hi : xs.size ≤ i) : (xs[i]?.map widen).getD 0 = 0 := by
    rw [Array.getElem?_eq_none hi]
    rfl
  have hcircle := h fun i => (xs[i]?.map widen).getD 0
  have hplace : l < n := by omega
  rw [padded, hcircle, lagSum_eq, ← sum_circle hzero hl hroom]
  simp [binAt, hplace]

variable [CharZero K]

theorem correlate_eq_lagSum (h : Correlates transform n) (hpos : 1 ≤ xs.size)
    (hroom : xs.size * 2 - 1 ≤ n) {plan : Plan K} (hplan : plan.Supplied transform n)
    {out : Array α} (hout : out.size = xs.size * 2 - 1) :
    ∃ plan', correlate widen narrow plan xs out =
        .ok ((Array.range (xs.size * 2 - 1)).map fun index =>
          narrow (lagSum widen xs (lag xs.size index)), plan') ∧
      plan'.Supplied transform n := by
  have hsize : (correlation transform (padded widen n xs)).size = n := by
    rw [padded, h fun i => (xs[i]?.map widen).getD 0, Array.size_ofFn]
  have hne : (n : K) ≠ 0 := Nat.cast_ne_zero.2 (by omega)
  have hvalues : ((Array.range (xs.size * 2 - 1)).map fun index => narrow
      ((binAt (correlation transform (padded widen n xs)) (lag xs.size index)).re *
        (1 / (n : K)))) =
      (Array.range (xs.size * 2 - 1)).map fun index =>
        narrow (lagSum widen xs (lag xs.size index)) := by
    refine Array.map_congr_left fun index hindex => congrArg narrow ?_
    rw [correlation_padded widen h hroom (lag_lt (Array.mem_range.1 hindex)), Bin.ofReal]
    field_simp
  rw [← hvalues]
  exact correlate_eq_ok widen narrow (by omega) hsize hplan hout

/-- In exact arithmetic the output holds at both places of each lag the sum over the pairs of
samples that lie so far apart, without a pair that reaches around the end: the buffer that is
prepared has room for all lags, whatever the length of the signal. Samples are widened first, and
the sums are narrowed last. -/
theorem correlate_lags (f known : Format Signal) (count workers : Nat) (hpos : 1 ≤ f.size)
    (h : Correlates transform (Padding.paddedSize (f.size * 2 - 1))) :
    (kernel.accept () () f known count).answer = .ok (f.withSize (f.size * 2 - 1), count) ∧
      (∀ before, ∃ plan : Plan Float,
        kernel.prepare () () before f (f.withSize (f.size * 2 - 1)) workers = .ok (some plan) ∧
          plan.Supplied (Fourier.transform .forward) (Padding.paddedSize (f.size * 2 - 1))) ∧
      ∀ (p : Plan K) (xs out : Array α),
        p.Supplied transform (Padding.paddedSize (f.size * 2 - 1)) → xs.size = f.size →
          out.size = f.size * 2 - 1 → ∃ ys p', correlate widen narrow p xs out = .ok (ys, p') ∧
            p'.Supplied transform (Padding.paddedSize (f.size * 2 - 1)) ∧
            ys.size = f.size * 2 - 1 ∧ ∀ l < f.size,
              ys[f.size - 1 + l]? = some (narrow (lagSum widen xs l)) ∧
              ys[f.size - 1 - l]? = some (narrow (lagSum widen xs l)) := by
  refine ⟨?_, fun _ => ⟨_, rfl, Plan.supplied_ofLength _ _ _⟩, fun p xs out hp hxs hout => ?_⟩
  · dsimp only [kernel]
    rw [if_neg (by omega), Checked.sub_eq_ok (by omega)]
  · rw [← hxs] at hpos h hp hout ⊢
    obtain ⟨p', hcorrelate, hp'⟩ := correlate_eq_lagSum widen narrow h hpos
      (Padding.le_paddedSize (xs.size * 2 - 1)) hp hout
    refine ⟨_, p', hcorrelate, hp', by rw [Array.size_map, Array.size_range], fun l hl => ?_⟩
    have hbefore : xs.size - 1 - l < xs.size * 2 - 1 := by omega
    have hbehind : xs.size - 1 + l < xs.size * 2 - 1 := by omega
    constructor
    · rw [Array.getElem?_map, Array.getElem?_range, if_pos hbehind, Option.map_some, lag_add hl]
    · rw [Array.getElem?_map, Array.getElem?_range, if_pos hbefore, Option.map_some, lag_sub hl]

end Exact

/-- Two samples, in a buffer of four values. -/
theorem correlate_lags_pair : ∃ ys p',
    correlate id id (.ofLength (Fourier.four .forward) 4 1) #[(2 : ℚ), 3] #[7, 7, 7] =
      .ok (ys, p') ∧ ys.size = 3 ∧ ys[0]? = some 6 ∧ ys[1]? = some 13 ∧ ys[2]? = some 6 := by
  obtain ⟨-, -, hrun⟩ := correlate_lags (id : ℚ → ℚ) id (⟨2, none⟩ : Format Signal) (.initial _) 1 1
    (by decide) correlates_four
  obtain ⟨ys, p', hcorrelate, -, hsize, hlags⟩ :=
    hrun (.ofLength (Fourier.four .forward) 4 1) #[2, 3] #[7, 7, 7] (Plan.supplied_ofLength _ _ _)
      rfl rfl
  have hcenter : lagSum id #[(2 : ℚ), 3] 0 = 13 := by
    norm_num [lagSum_eq, Finset.sum_range_succ]
  have houter : lagSum id #[(2 : ℚ), 3] 1 = 6 := by
    norm_num [lagSum_eq, Finset.sum_range_succ]
  refine ⟨ys, p', hcorrelate, hsize, ?_, ?_, ?_⟩
  · exact houter ▸ (hlags 1 (by decide)).2
  · exact hcenter ▸ (hlags 0 (by decide)).1
  · exact houter ▸ (hlags 1 (by decide)).1

end Timbre.Autocorrelation
