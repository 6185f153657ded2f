import Mathlib.Algebra.BigOperators.Fin
import Mathlib.Algebra.Order.BigOperators.Ring.Finset
import Mathlib.Tactic.Linarith
import Timbre.Proofs.Kernel.Tiling

/-! # Convolutions with combs

A comb adds up copies of a signal, one for each pulse and a period apart. The buffer has room for
the last copy, and it is emptied before, so what it held before does not count. At each place it
holds the sum of the samples that the pulses bring there, and its energy is the sum of the squares.
Copies that do not overlap keep their energies. Main statement: `combEnergy_eq_sum_sq`.
-/
namespace Timbre.Tempo

section Copies

variable {K : Type} [Semiring K] {signal : Array K} {pulses period offset length t : Nat}

/-- A signal behind `offset` zeros, with zeros after it. -/
def shifted (signal : Array K) (offset t : Nat) : K :=
  if offset ≤ t then signal[t - offset]?.getD 0 else 0

/-- The sum of the samples that the pulses of a comb bring to place `t`. -/
def pulseSum (pulses period : Nat) (signal : Array K) (t : Nat) : K :=
  ∑ p ∈ Finset.range pulses with p * period ≤ t ∧ t - p * period < signal.size,
    signal[t - p * period]?.getD 0

theorem shifted_eq_zero (h : ¬(offset ≤ t ∧ t - offset < signal.size)) :
    shifted signal offset t = 0 := by
  unfold shifted
  split
  · rename_i hoffset
    rw [Array.getElem?_eq_none (Nat.not_lt.1 fun hlt => h ⟨hoffset, hlt⟩), Option.getD_none]
  · rfl

theorem shifted_eq_zero_or_mem (signal : Array K) (offset t : Nat) :
    shifted signal offset t = 0 ∨ shifted signal offset t ∈ signal := by
  unfold shifted
  split
  · cases hsample : signal[t - offset]? with
    | none => exact .inl rfl
    | some x => exact .inr (Array.mem_of_getElem? hsample)
  · exact .inl rfl

theorem pulseSum_eq (pulses period : Nat) (signal : Array K) (t : Nat) :
    pulseSum pulses period signal t =
      ∑ p ∈ Finset.range pulses, shifted signal (p * period) t := by
  rw [pulseSum, Finset.sum_filter]
  refine Finset.sum_congr rfl fun p _ => ?_
  split
  · rename_i h
    rw [shifted, if_pos h.1]
  · rename_i h
    exact (shifted_eq_zero h).symm

theorem cleared_eq (buffer : Array K) (length : Nat) :
    cleared buffer length = Array.ofFn fun _ : Fin length => 0 := by
  apply Array.ext (by simp [cleared])
  intro i hi hi'
  simp [cleared]

theorem addAt_ofFn (f : Nat → K) (signal : Array K) (h : offset ≤ length) :
    addAt (Array.ofFn fun t : Fin length => f t) signal offset =
      .ok (Array.ofFn fun t : Fin length => f t + shifted signal offset t) := by
  rw [addAt, if_pos (by simpa using h)]
  refine congrArg Except.ok (Array.ext (by simp) fun i hi hi' => ?_)
  simp only [Array.getElem_mapIdx, Array.getElem_ofFn, shifted]
  split
  · cases signal[i - offset]? <;> simp
  · simp

theorem copy_le {p : Nat} (hp : p < pulses) (size period : Nat) :
    p * period + size ≤ size + (pulses - 1) * period := by
  have hle : p * period ≤ (pulses - 1) * period :=
    Nat.mul_le_mul_right period (Nat.le_sub_one_of_lt hp)
  omega

theorem comb_eq_ok (hpulses : 1 ≤ pulses) (period : Nat) (signal buffer : Array K) :
    comb pulses period signal buffer =
      .ok (Array.ofFn fun t : Fin (signal.size + (pulses - 1) * period) =>
        pulseSum pulses period signal t) := by
  have hstart : cleared buffer (signal.size + (pulses - 1) * period) =
      Array.ofFn fun t : Fin (signal.size + (pulses - 1) * period) =>
        ∑ p ∈ Finset.range 0, shifted signal (p * period) t := by
    simp only [cleared_eq, Finset.range_zero, Finset.sum_empty]
  simp only [comb, Checked.sub_eq_ok hpulses, bind, Except.bind, hstart, pulseSum_eq]
  refine foldlM_range_eq_ok
    (g := fun p => Array.ofFn fun t : Fin (signal.size + (pulses - 1) * period) =>
      ∑ q ∈ Finset.range p, shifted signal (q * period) t) fun p hp => ?_
  have hroom : p * period ≤ signal.size + (pulses - 1) * period :=
    Nat.le_of_add_right_le (copy_le hp signal.size period)
  simp only [Finset.sum_range_succ]
  exact addAt_ofFn (fun t => ∑ q ∈ Finset.range p, shifted signal (q * period) t) signal hroom

/-- The first sample that is not zero stands alone: every later copy has zeros there. -/
theorem exists_pulseSum_ne_zero (hpulses : 1 ≤ pulses) (hperiod : 1 ≤ period)
    (h : ∃ x ∈ signal, x ≠ 0) : ∃ i < signal.size, pulseSum pulses period signal i ≠ 0 := by
  have hplace : ∃ i : Nat, signal[i]?.getD 0 ≠ 0 := by
    obtain ⟨x, hx, hne⟩ := h
    obtain ⟨i, hi, rfl⟩ := Array.mem_iff_getElem.1 hx
    exact ⟨i, by simpa [hi] using hne⟩
  classical
  have hne := Nat.find_spec hplace
  have hleast : ∀ i < Nat.find hplace, signal[i]?.getD 0 = 0 := fun i hi =>
    not_not.1 (Nat.find_min hplace hi)
  generalize Nat.find hplace = i at hne hleast
  refine ⟨i, ?_, ?_⟩
  · by_contra hi
    exact hne (by simp [Array.getElem?_eq_none (Nat.not_lt.1 hi)])
  · have hlater : ∀ p ∈ Finset.range pulses, p ≠ 0 → shifted signal (p * period) i = 0 := by
      intro p _ hp
      have hoffset : 0 < p * period := Nat.mul_pos (Nat.pos_of_ne_zero hp) hperiod
      unfold shifted
      split
      · exact hleast _ (by omega)
      · rfl
    rw [pulseSum_eq, Finset.sum_eq_single_of_mem 0 (Finset.mem_range.2 hpulses) hlater]
    simpa [shifted] using hne

end Copies

section Energy

variable {K : Type} [Semiring K] {signal : Array K} {pulses period offset length : Nat}

theorem energy_ofFn (n : Nat) (f : Nat → K) :
    Samples.energy (Array.ofFn fun t : Fin n => f t) = ∑ t ∈ Finset.range n, f t ^ 2 := by
  rw [Samples.energy_eq, Array.toList_ofFn, List.map_ofFn, List.sum_ofFn, Finset.sum_range]
  simp only [Function.comp_apply, pow_two]

theorem energy_eq_sum (signal : Array K) :
    Samples.energy signal = ∑ i ∈ Finset.range signal.size, (signal[i]?.getD 0) ^ 2 := by
  have hsignal : signal = Array.ofFn fun i : Fin signal.size => signal[i.val]?.getD 0 :=
    Array.ext (by simp) fun i hi hi' => by simp
  conv_lhs => rw [hsignal]
  exact energy_ofFn signal.size fun i => signal[i]?.getD 0

/-- The energy of the convolution of a signal with a comb. -/
def combScore (pulses period : Nat) (signal : Array K) : K :=
  ∑ t ∈ Finset.range (signal.size + (pulses - 1) * period), pulseSum pulses period signal t ^ 2

theorem combEnergy_eq_ok (hpulses : 1 ≤ pulses) (period : Nat) (signal buffer : Array K) :
    combEnergy pulses period signal buffer =
      .ok (combScore pulses period signal,
        Array.ofFn fun t : Fin (signal.size + (pulses - 1) * period) =>
          pulseSum pulses period signal t) := by
  rw [combEnergy, comb_eq_ok hpulses]
  exact congrArg (fun e => Except.ok (e, _)) (energy_ofFn _ _)

theorem sum_shifted_sq (h : offset + signal.size ≤ length) :
    ∑ t ∈ Finset.range length, shifted signal offset t ^ 2 = Samples.energy signal := by
  obtain ⟨rest, rfl⟩ := Nat.exists_eq_add_of_le h
  have hbefore : ∑ t ∈ Finset.range offset, shifted signal offset t ^ 2 = 0 :=
    Finset.sum_eq_zero fun t ht => by
      have hlt := Finset.mem_range.1 ht
      rw [shifted_eq_zero (by omega), zero_pow two_ne_zero]
  have hbehind : ∑ t ∈ Finset.range rest,
      shifted signal offset (offset + signal.size + t) ^ 2 = 0 :=
    Finset.sum_eq_zero fun t _ => by
      rw [shifted_eq_zero (by omega), zero_pow two_ne_zero]
  rw [Finset.sum_range_add, Finset.sum_range_add, hbefore, hbehind, zero_add, add_zero,
    energy_eq_sum]
  refine Finset.sum_congr rfl fun i _ => ?_
  simp [shifted]

theorem sum_sq_of_separate {ι : Type} {s : Finset ι} {f : ι → K}
    (h : ∀ p ∈ s, ∀ q ∈ s, p ≠ q → f p = 0 ∨ f q = 0) :
    (∑ p ∈ s, f p) ^ 2 = ∑ p ∈ s, f p ^ 2 := by
  by_cases hzero : ∀ p ∈ s, f p = 0
  · rw [Finset.sum_eq_zero hzero, zero_pow two_ne_zero]
    exact (Finset.sum_eq_zero fun p hp => by rw [hzero p hp, zero_pow two_ne_zero]).symm
  · push Not at hzero
    obtain ⟨p, hp, hne⟩ := hzero
    have hother : ∀ q ∈ s, q ≠ p → f q = 0 := fun q hq hqp =>
      (h p hp q hq hqp.symm).resolve_left hne
    rw [Finset.sum_eq_single_of_mem p hp hother]
    refine (Finset.sum_eq_single_of_mem (f := fun q => f q ^ 2) p hp fun q hq hqp => ?_).symm
    rw [hother q hq hqp, zero_pow two_ne_zero]

theorem shifted_separate (h : signal.size ≤ period) {p q : Nat} (hpq : p < q) (t : Nat) :
    shifted signal (p * period) t = 0 ∨ shifted signal (q * period) t = 0 := by
  have hstep : p * period + period ≤ q * period := by
    rw [← Nat.succ_mul]
    exact Nat.mul_le_mul_right period hpq
  by_cases ht : q * period ≤ t
  · exact .inl (shifted_eq_zero (by omega))
  · exact .inr (shifted_eq_zero fun hin => ht hin.1)

/-- Taken one by one, the copies have as many times the energy of the signal as there are pulses. -/
theorem sum_copies_sq (pulses period : Nat) (signal : Array K) :
    ∑ t ∈ Finset.range (signal.size + (pulses - 1) * period), ∑ p ∈ Finset.range pulses,
      shifted signal (p * period) t ^ 2 = pulses * Samples.energy signal := by
  have hcopy : ∀ p ∈ Finset.range pulses,
      ∑ t ∈ Finset.range (signal.size + (pulses - 1) * period),
        shifted signal (p * period) t ^ 2 = Samples.energy signal := fun p hp =>
    sum_shifted_sq (copy_le (Finset.mem_range.1 hp) signal.size period)
  rw [Finset.sum_comm, Finset.sum_congr rfl hcopy, Finset.sum_const, Finset.card_range,
    nsmul_eq_mul]

theorem combScore_of_size_le (h : signal.size ≤ period) (pulses : Nat) :
    combScore pulses period signal = pulses * Samples.energy signal := by
  have hsquare (t : Nat) : pulseSum pulses period signal t ^ 2 =
      ∑ p ∈ Finset.range pulses, shifted signal (p * period) t ^ 2 := by
    rw [pulseSum_eq]
    refine sum_sq_of_separate fun p _ q _ hpq => ?_
    rcases Nat.lt_or_gt_of_ne hpq with hlt | hlt
    · exact shifted_separate h hlt t
    · exact (shifted_separate h hlt t).symm
  simp only [combScore, hsquare]
  exact sum_copies_sq pulses period signal

/-- In exact arithmetic the energy of a signal convolved with a comb is the sum, over all places
that some copy of the signal reaches, of the square of the sum of the samples that the pulses bring
there: each copy lies in the buffer from its first sample to its last, and what the buffer held
before does not count. Where the period is no shorter than the signal, it is the energy of the
signal times the number of pulses. -/
theorem combEnergy_eq_sum_sq (hpulses : 1 ≤ pulses) (period : Nat) (signal buffer : Array K) :
    ∃ convolved : Array K,
      combEnergy pulses period signal buffer =
          .ok (∑ t ∈ Finset.range (signal.size + (pulses - 1) * period),
            (∑ p ∈ Finset.range pulses with p * period ≤ t ∧ t - p * period < signal.size,
              signal[t - p * period]?.getD 0) ^ 2, convolved) ∧
        (∀ p < pulses, p * period + signal.size ≤ convolved.size) ∧
        (signal.size ≤ period → combEnergy pulses period signal buffer =
          .ok (pulses * ∑ i : Fin signal.size, signal[i] ^ 2, convolved)) := by
  refine ⟨_, combEnergy_eq_ok hpulses period signal buffer, fun p hp => ?_, fun h => ?_⟩
  · rw [Array.size_ofFn]
    exact copy_le hp signal.size period
  · have henergy : Samples.energy signal = ∑ i : Fin signal.size, signal[i] ^ 2 := by
      rw [energy_eq_sum, Finset.sum_range]
      simp
    rw [combEnergy_eq_ok hpulses, combScore_of_size_le h, henergy]

end Energy

/-- Three samples and two pulses, once two places apart and once three, in a buffer that holds
other values. -/
theorem combEnergy_eq_sum_sq_three : ∃ overlapping separate : Array ℚ,
    combEnergy 2 2 #[(1 : ℚ), 2, 3] #[7, 7, 7, 7, 7, 7] = .ok (34, overlapping) ∧
      combEnergy 2 3 #[(1 : ℚ), 2, 3] #[7, 7, 7, 7, 7, 7] = .ok (2 * 14, separate) := by
  obtain ⟨overlapping, hoverlapping, -, -⟩ :=
    combEnergy_eq_sum_sq (by decide : 1 ≤ 2) 2 #[(1 : ℚ), 2, 3] #[7, 7, 7, 7, 7, 7]
  obtain ⟨separate, -, -, hseparate⟩ :=
    combEnergy_eq_sum_sq (by decide : 1 ≤ 2) 3 #[(1 : ℚ), 2, 3] #[7, 7, 7, 7, 7, 7]
  have henergy : ∑ i : Fin 3, #[(1 : ℚ), 2, 3][i] ^ 2 = 14 := by
    norm_num [Fin.sum_univ_three]
  refine ⟨overlapping, separate, hoverlapping.trans ?_, (hseparate (by decide)).trans ?_⟩
  · norm_num [Finset.sum_filter, Finset.sum_range_succ]
  · exact congrArg (fun e : ℚ => Except.ok (2 * e, separate)) henergy

section Positive

variable {K : Type} [Field K] [LinearOrder K] [IsStrictOrderedRing K] {signal : Array K}
  {pulses period : Nat}

theorem combScore_nonneg (pulses period : Nat) (signal : Array K) :
    0 ≤ combScore pulses period signal :=
  Finset.sum_nonneg fun _ _ => sq_nonneg _

theorem combScore_pos_iff (hpulses : 1 ≤ pulses) (hperiod : 1 ≤ period) :
    0 < combScore pulses period signal ↔ ∃ x ∈ signal, x ≠ 0 := by
  constructor
  · intro hpos
    by_contra hsilent
    push Not at hsilent
    have hshifted (offset t : Nat) : shifted signal offset t = 0 :=
      (shifted_eq_zero_or_mem signal offset t).elim id (hsilent _)
    have hzero : combScore pulses period signal = 0 := by
      simp [combScore, pulseSum_eq, hshifted]
    exact hpos.ne' hzero
  · intro h
    obtain ⟨i, hi, hne⟩ := exists_pulseSum_ne_zero hpulses hperiod h
    exact Finset.sum_pos' (fun _ _ => sq_nonneg _)
      ⟨i, Finset.mem_range.2 (by omega), sq_pos_of_ne_zero hne⟩

theorem sum_sq_lt_sq_sum {ι : Type} {s : Finset ι} {f : ι → K} (hf : ∀ p ∈ s, 0 ≤ f p) {p q : ι}
    (hp : p ∈ s) (hq : q ∈ s) (hne : q ≠ p) (hfp : 0 < f p) (hfq : 0 < f q) :
    ∑ i ∈ s, f i ^ 2 < (∑ i ∈ s, f i) ^ 2 := by
  classical
  have hrest : ∀ i ∈ s.erase p, 0 ≤ f i := fun i hi => hf i (Finset.mem_of_mem_erase hi)
  have hle := Finset.sum_sq_le_sq_sum_of_nonneg hrest
  have hother : f q ≤ ∑ i ∈ s.erase p, f i :=
    Finset.single_le_sum hrest (Finset.mem_erase.2 ⟨hne, hq⟩)
  have hcross : 0 < f p * ∑ i ∈ s.erase p, f i := mul_pos hfp (hfq.trans_le hother)
  calc ∑ i ∈ s, f i ^ 2 = f p ^ 2 + ∑ i ∈ s.erase p, f i ^ 2 := (Finset.add_sum_erase s _ hp).symm
    _ < (f p + ∑ i ∈ s.erase p, f i) ^ 2 := by linarith [add_sq (f p) (∑ i ∈ s.erase p, f i)]
    _ = (∑ i ∈ s, f i) ^ 2 := by rw [Finset.add_sum_erase s f hp]

omit [IsStrictOrderedRing K] in
theorem shifted_nonneg (h : ∀ x ∈ signal, 0 ≤ x) (offset t : Nat) :
    0 ≤ shifted signal offset t :=
  (shifted_eq_zero_or_mem signal offset t).elim Eq.ge (h _)

/-- Pulses that meet the rhythm add up: two samples a period apart give more energy than copies that
are kept apart. -/
theorem lt_combScore_of_meet (hpulses : 2 ≤ pulses) (hsignal : ∀ x ∈ signal, 0 ≤ x) {i : Nat}
    (hfirst : 0 < signal[i]?.getD 0) (hsecond : 0 < signal[i + period]?.getD 0) :
    pulses * Samples.energy signal < combScore pulses period signal := by
  have hplace : i + period < signal.size := by
    by_contra hsize
    rw [Array.getElem?_eq_none (Nat.not_lt.1 hsize)] at hsecond
    exact lt_irrefl 0 hsecond
  simp only [← sum_copies_sq pulses period signal, combScore, pulseSum_eq]
  refine Finset.sum_lt_sum (fun t _ =>
    Finset.sum_sq_le_sq_sum_of_nonneg fun p _ => shifted_nonneg hsignal _ _)
    ⟨i + period, Finset.mem_range.2 (by omega), ?_⟩
  have hmeet : 0 < shifted signal (0 * period) (i + period) := by simpa [shifted] using hsecond
  have hmeet' : 0 < shifted signal (1 * period) (i + period) := by simpa [shifted] using hfirst
  exact sum_sq_lt_sq_sum (fun p _ => shifted_nonneg hsignal _ _) (Finset.mem_range.2 (by omega))
    (Finset.mem_range.2 (by omega)) one_ne_zero hmeet hmeet'

end Positive

end Timbre.Tempo
