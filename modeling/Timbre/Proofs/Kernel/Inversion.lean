import Mathlib.Algebra.Field.Rat
import Mathlib.Data.Rat.Cast.CharZero
import Mathlib.Tactic.FieldSimp
import Mathlib.Tactic.Ring
import Timbre.Proofs.Kernel.Spectra

/-! # From a signal to its spectrum and back

A spectrum that is symmetric is known from its bins up to the middle. These are the ones that are
stored; the mirror image of each of them is the bin that was left out. So the inverse transforms the
whole spectrum, and what is left of it after the division by the length is the signal. Main
statement: `inverse_forward`.
-/
namespace Timbre.Spectrum

section Stored

variable {α : Type}

theorem getElem?_interleave (bins : Array (Bin α)) (i : Nat) {j : Nat} (hj : j < 2) :
    (interleave bins)[i * 2 + j]? = bins[i]?.bind fun z => [z.re, z.im][j]? := by
  have hlist : (interleave bins).toList = bins.toList.flatMap fun z => [z.re, z.im] := by
    simp [interleave]
  have hlength : ∀ z ∈ bins.toList, [z.re, z.im].length = 2 := fun _ _ => rfl
  rw [← Array.getElem?_toList, hlist, getElem?_flatMap hlength hj, Array.getElem?_toList]

theorem getElem?_toBins (xs : Array α) (i : Nat) :
    (toBins xs)[i]? = xs[i * 2]?.bind fun re => xs[i * 2 + 1]?.map fun im => ⟨re, im⟩ := by
  by_cases hi : i * 2 + 1 < xs.size
  · have hpair : i < xs.size / 2 := by omega
    rw [Array.getElem?_eq_getElem hi, Array.getElem?_eq_getElem (Nat.lt_of_succ_lt hi)]
    simp [toBins, Samples.pairs, hpair, Nat.mul_comm]
  · have hbehind : (toBins xs).size ≤ i := by
      rw [size_toBins]
      omega
    rw [Array.getElem?_eq_none (Nat.not_lt.1 hi), Array.getElem?_eq_none hbehind]
    simp

theorem getElem?_toBins_interleave (bins : Array (Bin α)) {i count : Nat} (hi : i < count) :
    (toBins ((interleave bins).extract 0 (count * 2)))[i]? = bins[i]? := by
  have hpart {j : Nat} (hj : j < 2) : ((interleave bins).extract 0 (count * 2))[i * 2 + j]? =
      bins[i]?.bind fun z => [z.re, z.im][j]? := by
    have hplace : i * 2 + j < count * 2 := by omega
    rw [← getElem?_interleave bins i hj, Array.getElem?_extract, Nat.zero_add, Nat.sub_zero]
    by_cases hwhole : i * 2 + j < (interleave bins).size
    · rw [if_pos (Nat.lt_min.2 ⟨hplace, hwhole⟩)]
    · rw [if_neg fun h => hwhole (Nat.lt_min.1 h).2, Array.getElem?_eq_none (Nat.not_lt.1 hwhole)]
  have hre := hpart Nat.two_pos
  rw [Nat.add_zero] at hre
  rw [getElem?_toBins, hre, hpart Nat.one_lt_two]
  cases bins[i]? <;> rfl

end Stored

theorem mirror_of_symmetric {α : Type} [Neg α] {length : Nat} {bins : Array (Bin α)}
    (hsize : bins.size = length)
    (hsymm : ∀ k, 0 < k → k < length → bins[length - k]? = bins[k]?.map .conj) :
    mirror length bins = .ok bins := by
  obtain ⟨left, hleft, rfl⟩ := exists_foldlM_eq_ok (· = bins) (mirrorBin length)
    (List.range' 1 (length / 2 - 1)) rfl fun left hleft bin hbin => by
      subst hleft
      have hrange := List.mem_range'_1.1 hbin
      have hlt : bin < left.size := by omega
      have hplace : length - bin < left.size := by omega
      have hmirror := hsymm bin hrange.1 (by omega)
      rw [Array.getElem?_eq_getElem hplace, Array.getElem?_eq_getElem hlt] at hmirror
      refine ⟨_, mirrorBin_eq_ok hrange.1 (by omega) hsize hlt, ?_⟩
      rw [← Option.some_inj.1 hmirror, Array.setIfInBounds, dif_pos hplace, Array.set_getElem_self]
  exact hleft

/-- Half of a symmetric spectrum is enough for the inverse: it transforms the whole of it. -/
theorem inverse_of_symmetric {α : Type} [Zero α] [One α] [Neg α] [Mul α] [Div α] [NatCast α]
    {back : Array (Bin α) → Array (Bin α)} {n : Nat} (heven : n % 2 = 0) (hpos : 2 ≤ n)
    {bins : Array (Bin α)} (hsize : bins.size = n)
    (hsymm : ∀ k, 0 < k → k < n → bins[n - k]? = bins[k]?.map .conj)
    (hback : (back bins).size = n) {plan : Plan α} (hplan : plan.Supplied back n) {out : Array α}
    (hout : out.size = n) : ∃ plan', inverse plan ((interleave bins).extract 0 (n + 2)) out =
        .ok ((back bins).map fun z => z.re * (1 / (n : α)), plan') ∧ plan'.Supplied back n := by
  have hagree (i : Nat) (hi : i ≤ n / 2) :
      bins[i]? = (toBins ((interleave bins).extract 0 (n + 2)))[i]? := by
    have hwhole : n + 2 = (n / 2 + 1) * 2 := by omega
    rw [hwhole, getElem?_toBins_interleave _ (Nat.lt_succ_of_le hi)]
  exact inverse_eq_ok heven hpos (size_stored hpos hsize) hsize hagree
    (mirror_of_symmetric hsize hsymm) hback hplan hout

section Formats

variable {f : Format Signal}

theorem forward_accept (heven : f.size % 2 = 0) (hpos : 2 ≤ f.size) (known : Format Signal)
    (count : Nat) : (forwardKernel.accept () () f known count).answer =
      .ok (f.withSize (f.size + 2), count) := by
  have hrequired : requireEven f 2 = .ok () := if_neg (by omega)
  dsimp only [forwardKernel]
  rw [hrequired]

theorem inverse_accept (heven : f.size % 2 = 0) (hpos : 2 ≤ f.size) (known : Format Signal)
    (count : Nat) : (inverseKernel.accept () () (f.withSize (f.size + 2)) known count).answer =
      .ok (f, count) := by
  have hrequired : requireEven (f.withSize (f.size + 2)) 4 = .ok () :=
    if_neg (by rw [Format.size_withSize]; omega)
  dsimp only [inverseKernel]
  rw [hrequired, Format.size_withSize, Checked.sub_eq_ok (Nat.le_add_left 2 f.size)]
  rfl

end Formats

section Exact

variable {K : Type} [Field K] {transform back : Array (Bin K) → Array (Bin K)}

/-- What is asked of two transforms of one length: the first takes every real signal to a symmetric
spectrum, and the second takes this spectrum to the signal times the length. -/
structure Opposite (transform back : Array (Bin K) → Array (Bin K)) (n : Nat) : Prop where
  size_eq : ∀ xs : Array K, xs.size = n → (transform (xs.map .ofReal)).size = n
  symmetric : ∀ xs : Array K, xs.size = n → ∀ k, 0 < k → k < n →
    (transform (xs.map .ofReal))[n - k]? = (transform (xs.map .ofReal))[k]?.map .conj
  back_eq : ∀ xs : Array K, xs.size = n →
    back (transform (xs.map .ofReal)) = xs.map fun x => .ofReal ((n : K) * x)

/-- In exact arithmetic the inverse takes the spectrum of a signal back to the signal, with any two
transforms that are opposite, whatever their buffers and the outputs held before. The formats allow
it for every even length from two on. -/
theorem inverse_forward [CharZero K] (f known known' : Format Signal) (count workers : Nat)
    (heven : f.size % 2 = 0) (hpos : 2 ≤ f.size) (h : Opposite transform back f.size) :
    (forwardKernel.accept () () f known count).answer =
        .ok (f.withSize (f.size + 2), count) ∧
      (inverseKernel.accept () () (f.withSize (f.size + 2)) known' count).answer =
        .ok (f, count) ∧
      (∀ before, ∃ plan : Plan Single, forwardKernel.prepare () () before f
          (f.withSize (f.size + 2)) workers = .ok (some plan) ∧
        plan.Supplied (Fourier.transform .forward) f.size) ∧
      (∀ before, ∃ plan : Plan Single, inverseKernel.prepare () () before
          (f.withSize (f.size + 2)) f workers = .ok (some plan) ∧
        plan.Supplied (Fourier.transform .inverse) f.size) ∧
      ∀ (p q : Plan K) (xs out out' : Array K), p.Supplied transform f.size →
        q.Supplied back f.size → xs.size = f.size → out.size = f.size + 2 → out'.size = f.size →
          ∃ ys p' q', forward p xs out = .ok (ys, p') ∧ inverse q ys out' = .ok (xs, q') ∧
            ys.size = f.size + 2 ∧ p'.Supplied transform f.size ∧ q'.Supplied back f.size := by
  refine ⟨forward_accept heven hpos known count, inverse_accept heven hpos known' count,
    fun _ => ⟨_, rfl, Plan.supplied_ofLength _ _ _⟩,
    fun _ => ⟨_, rfl, Plan.supplied_ofLength _ _ _⟩, ?_⟩
  intro p q xs out out' hp hq hxs hout hout'
  have hspectrum := h.size_eq xs hxs
  have hsignal : (back (transform (xs.map .ofReal))).size = f.size := by
    rw [h.back_eq xs hxs, Array.size_map, hxs]
  have hscaled :
      ((back (transform (xs.map .ofReal))).map fun z => z.re * (1 / (f.size : K))) = xs := by
    have hne : (f.size : K) ≠ 0 := Nat.cast_ne_zero.2 (by omega)
    have hsample : ((fun z : Bin K => z.re * (1 / (f.size : K))) ∘
        fun x => .ofReal ((f.size : K) * x)) = id := by
      funext x
      simp only [Function.comp_apply, Bin.ofReal, id_eq]
      field_simp
    rw [h.back_eq xs hxs, Array.map_map, hsample, Array.map_id]
  obtain ⟨p', hforward, hp'⟩ := forward_eq_ok heven hpos hxs hspectrum hp hout
  obtain ⟨q', hinverse, hq'⟩ :=
    inverse_of_symmetric heven hpos hspectrum (h.symmetric xs hxs) hsignal hq hout'
  rw [hscaled] at hinverse
  exact ⟨_, p', q', hforward, hinverse, size_stored hpos hspectrum, hp', hq'⟩

theorem four_ofReal (a b c d : K) : Fourier.four .forward (#[a, b, c, d].map .ofReal) =
    #[⟨a + c + (b + d), 0⟩, ⟨a - c, d - b⟩, ⟨a + c - (b + d), 0⟩, ⟨a - c, b - d⟩] := by
  simp [Fourier.four, Fourier.quarterTurn, binAt, Bin.ofReal, Bin.add, Bin.sub]

theorem opposite_four : Opposite (K := K) (Fourier.four .forward) (Fourier.four .inverse) 4 where
  size_eq _ _ := rfl
  symmetric xs hxs k hpos hlt := by
    obtain ⟨a, b, c, d, hlist⟩ := List.length_eq_four.1 hxs
    obtain rfl : xs = #[a, b, c, d] := Array.toList_inj.1 hlist
    rw [four_ofReal]
    match k with
    | 1 => simp [Bin.conj]
    | 2 => simp [Bin.conj]
    | 3 => simp [Bin.conj]
  back_eq xs hxs := by
    obtain ⟨a, b, c, d, hlist⟩ := List.length_eq_four.1 hxs
    obtain rfl : xs = #[a, b, c, d] := Array.toList_inj.1 hlist
    rw [four_ofReal]
    have ha : a + c + (a + c) + (a - c + (a - c)) = 4 * a := by ring
    have hb : b + d + (b + d) + (b - d - (d - b)) = 4 * b := by ring
    have hc : a + c + (a + c) - (a - c + (a - c)) = 4 * c := by ring
    have hd : b + d + (b + d) - (b - d - (d - b)) = 4 * d := by ring
    simp [Fourier.four, Fourier.quarterTurn, binAt, Bin.ofReal, Bin.add, Bin.sub, ha, hb, hc, hd]

end Exact

/-- Four rationals with the transforms of four values, over an output that holds others. -/
theorem inverse_forward_four : ∃ ys p' q',
    forward (.ofLength (Fourier.four .forward) 4 1) #[(1 : ℚ), 2, 3, 4] #[0, 0, 0, 0, 0, 0] =
        .ok (ys, p') ∧
      inverse (.ofLength (Fourier.four .inverse) 4 1) ys #[7, 7, 7, 7] =
        .ok (#[1, 2, 3, 4], q') := by
  obtain ⟨-, -, -, -, hrun⟩ := inverse_forward (K := ℚ) (⟨4, none⟩ : Format Signal)
    (.initial _) (.initial _) 1 1 (by decide) (by decide) opposite_four
  obtain ⟨ys, p', q', hforward, hinverse, -⟩ := hrun (.ofLength (Fourier.four .forward) 4 1)
    (.ofLength (Fourier.four .inverse) 4 1) #[1, 2, 3, 4] #[0, 0, 0, 0, 0, 0] #[7, 7, 7, 7]
    (Plan.supplied_ofLength _ _ _) (Plan.supplied_ofLength _ _ _) rfl rfl rfl
  exact ⟨ys, p', q', hforward, hinverse⟩

end Timbre.Spectrum
