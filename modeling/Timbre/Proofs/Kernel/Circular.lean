import Mathlib.Algebra.BigOperators.Intervals
import Mathlib.Data.List.Rotate
import Mathlib.Tactic.Ring
import Timbre.Kernel.Difference
import Timbre.Proofs.Kernel.Spectra

/-! # Differences in a circle

Each value that is written is one formula of the values from its place on, in a circle. The last
place is no exception, although the plain difference writes it on its own and the sums of a level
reach around the end, over and over where the signal is shorter. The formula mentions neither what
the output held nor what stood in the arrays of sums: sums are stored before they are read. A signal
that is turned turns what is written: `everywhere_rotated`. In exact arithmetic the formula of a
level is a difference of two sums: `process_detail`.
-/
namespace Timbre

/-- The values from place `r` on, and then those before it. -/
def Samples.rotated {α : Type} (r : Nat) (xs : Array α) : Array α := (xs.toList.rotate r).toArray

@[simp] theorem Samples.size_rotated {α : Type} (r : Nat) (xs : Array α) :
    (rotated r xs).size = xs.size := by
  simp [rotated]

namespace Difference

section Circle

variable {α β γ : Type} {xs : Array α}

theorem ahead_eq (i : Fin xs.size) {k j : Nat} (h : (i.val + k) % xs.size = j)
    (hj : j < xs.size) : ahead xs k i = xs[j] := by
  subst h
  rfl

theorem ahead_zero (i : Fin xs.size) (hi : i.val < xs.size) : ahead xs 0 i = xs[i.val] :=
  ahead_eq i (Nat.mod_eq_of_lt hi) hi

theorem ahead_ahead (i : Fin xs.size) (j k : Nat) (h : (i.val + k) % xs.size < xs.size) :
    ahead xs j ⟨(i.val + k) % xs.size, h⟩ = ahead xs (j + k) i := by
  have hplace : ((i.val + k) % xs.size + j) % xs.size = (i.val + (j + k)) % xs.size := by
    rw [Nat.mod_add_mod, Nat.add_assoc, Nat.add_comm k j]
  simp only [ahead, hplace]

/-- A formula of the values from a place on, at every place of a circle. -/
def everywhere (f : (Nat → α) → β) (xs : Array α) : Array β := Array.ofFn fun i => f (ahead xs · i)

@[simp] theorem size_everywhere (f : (Nat → α) → β) (xs : Array α) :
    (everywhere f xs).size = xs.size := Array.size_ofFn

theorem getElem_everywhere (f : (Nat → α) → β) {i : Nat} (hi : i < (everywhere f xs).size) :
    (everywhere f xs)[i] = f (ahead xs · ⟨i, size_everywhere f xs ▸ hi⟩) := by
  simp [everywhere]

theorem getElem?_everywhere (f : (Nat → α) → β) {i : Nat} (hi : i < xs.size) :
    (everywhere f xs)[i]? = some (f (ahead xs · ⟨i, hi⟩)) := by
  simp [everywhere, hi]

theorem everywhere_head (xs : Array α) : everywhere (· 0) xs = xs := by
  apply Array.ext (size_everywhere _ xs)
  intro i hi hi'
  exact (getElem_everywhere _ hi).trans (ahead_zero ⟨i, hi'⟩ hi')

theorem ahead_everywhere (f : (Nat → α) → β) (k : Nat) (i : Fin (everywhere f xs).size) :
    ahead (everywhere f xs) k i = f fun j => ahead xs (j + k) (i.cast (size_everywhere f xs)) := by
  have hplace : (everywhere f xs).size = xs.size := size_everywhere f xs
  rw [ahead, getElem_everywhere]
  congr 1
  funext j
  simp only [hplace]
  exact ahead_ahead (i.cast hplace) j k _

theorem everywhere_everywhere (g : (Nat → β) → γ) (f : (Nat → α) → β) (xs : Array α) :
    everywhere g (everywhere f xs) = everywhere (fun v => g fun k => f fun j => v (j + k)) xs := by
  apply Array.ext
  · simp only [size_everywhere]
  · intro i hi hi'
    rw [getElem_everywhere, getElem_everywhere]
    simp only [ahead_everywhere]
    rfl

theorem rotated_eq (r : Nat) (xs : Array α) : Samples.rotated r xs = everywhere (· r) xs := by
  apply Array.ext
  · simp
  · intro i hi hi'
    simp [Samples.rotated, everywhere, ahead, List.getElem_rotate]

theorem everywhere_rotated (f : (Nat → α) → β) (r : Nat) (xs : Array α) :
    everywhere f (Samples.rotated r xs) = Samples.rotated r (everywhere f xs) := by
  simp only [rotated_eq, everywhere_everywhere, Nat.add_comm r]

end Circle

variable {α : Type} {n : Nat}

def Sums.sizes (sums : Sums α) : Nat × Nat := (sums.approximation.size, sums.next.size)

section Haar

variable [Add α] [Sub α] [Mul α] (c : α)

theorem haarStep_everywhere (stride : Nat) {xs detail approximation : Array α} (hxs : xs.size = n)
    (hdetail : detail.size = n) (happroximation : approximation.size = n) :
    haarStep c stride xs detail approximation =
      .ok (everywhere (fun v => (v stride - v 0) * c) xs,
        everywhere (fun v => (v stride + v 0) * c) xs) := by
  have hroom : xs.size ≤ detail.size ∧ xs.size ≤ approximation.size := by omega
  simp only [haarStep, if_pos hroom, everywhere, ahead_zero, Fin.is_lt, Fin.getElem_fin]
  rw [Samples.overwrite_of_size_eq hdetail (by rw [Array.size_ofFn, hxs]),
    Samples.overwrite_of_size_eq happroximation (by rw [Array.size_ofFn, hxs])]

/-- The sum at one place after so many levels, from the values from this place on. -/
def smooth : Nat → (Nat → α) → α
  | 0, v => v 0
  | level + 1, v => (smooth level (v <| · + 2 ^ level) + smooth level v) * c

/-- The detail at one place, from the values from this place on; at level 0 the plain difference. -/
def detail : Nat → (Nat → α) → α
  | 0, v => v 1 - v 0
  | level + 1, v => (smooth c level (v <| · + 2 ^ level) - smooth c level v) * c

theorem haarStep_smooth (level : Nat) {xs out next : Array α} (hxs : xs.size = n)
    (hout : out.size = n) (hnext : next.size = n) :
    haarStep c (1 <<< level) (everywhere (smooth c level) xs) out next =
      .ok (everywhere (detail c (level + 1)) xs, everywhere (smooth c (level + 1)) xs) := by
  rw [haarStep_everywhere c _ ((size_everywhere _ xs).trans hxs) hout hnext,
    everywhere_everywhere, everywhere_everywhere, Nat.one_shiftLeft]
  rfl

/-- The two arrays of sums change places at each level: the sums of the level before last are the
room for the next ones. -/
theorem refine_eq_ok (count level : Nat) {xs next : Array α} (hxs : xs.size = n)
    (hnext : next.size = n) : ∃ sums : Sums α,
      refine c count (level + 2) (everywhere (detail c (level + 1)) xs)
          ⟨everywhere (smooth c (level + 1)) xs, next⟩ =
        .ok (everywhere (detail c (level + 1 + count)) xs, sums) ∧ sums.sizes = (n, n) := by
  have hsize (f : (Nat → α) → α) : (everywhere f xs).size = n := (size_everywhere f xs).trans hxs
  induction count generalizing level next with
  | zero => exact ⟨⟨_, next⟩, rfl, Prod.ext (hsize _) hnext⟩
  | succ count ih =>
    obtain ⟨sums, hsums, hsizes⟩ := ih (level + 1) (hsize (smooth c (level + 1)))
    have hlast : level + 1 + (count + 1) = level + 1 + 1 + count := by omega
    have hstep := haarStep_smooth c (level + 1) hxs (hsize (detail c (level + 1))) hnext
    refine ⟨sums, ?_, hsizes⟩
    rw [Difference.refine, hlast]
    exact (congrArg (· >>= _) hstep).trans hsums

theorem waveletDetail_eq_ok (level : Nat) {xs out : Array α} {sums : Sums α} (hxs : xs.size = n)
    (hout : out.size = n) (hsums : sums.sizes = (n, n)) : ∃ sums' : Sums α,
      waveletDetail c (level + 1) xs out sums = .ok (everywhere (detail c (level + 1)) xs, sums') ∧
        sums'.sizes = (n, n) := by
  obtain ⟨happroximation, hnext⟩ := Prod.mk.inj hsums
  obtain ⟨sums', hsums', hsizes⟩ := refine_eq_ok c level 0 hxs hnext
  have hfirst := haarStep_smooth c 0 hxs hout happroximation
  rw [show everywhere (smooth c 0) xs = xs from everywhere_head xs] at hfirst
  rw [Nat.zero_add, Nat.add_comm 1] at hsums'
  refine ⟨sums', ?_, hsizes⟩
  exact (congrArg (· >>= _) hfirst).trans hsums'

end Haar

/-- What is written last, the step from the last value to the first, is the difference that the
circle has there. -/
theorem difference_eq [Sub α] {xs out : Array α} (hout : out.size = xs.size) :
    difference xs out = everywhere (fun v => v 1 - v 0) xs := by
  rcases Nat.eq_zero_or_pos xs.size with hempty | hpos
  · rw [Array.eq_empty_of_size_eq_zero hempty,
      Array.eq_empty_of_size_eq_zero (hout.trans hempty)]
    rfl
  · have hfirst : xs[0]? = some xs[0] := Array.getElem?_eq_getElem hpos
    have hlast : xs.back? = some xs[xs.size - 1] := by
      rw [Array.back?_eq_getElem?, Array.getElem?_eq_getElem (by omega)]
    have hsteps : (Array.zipWith (· - ·) (xs.extract 1 xs.size) xs).size = xs.size - 1 := by simp
    rw [difference, hfirst, hlast]
    dsimp only
    apply Array.ext_getElem?
    intro i
    rw [Array.getElem?_setIfInBounds, Samples.size_overwrite, Samples.getElem?_overwrite, hsteps,
      hout]
    rcases Nat.lt_trichotomy i (xs.size - 1) with hi | rfl | hi
    · have hnext : i + 1 < xs.size := by omega
      have hplace : i < xs.size := Nat.lt_of_succ_lt hnext
      have hahead := ahead_eq ⟨i, hplace⟩ (Nat.mod_eq_of_lt hnext) hnext
      rw [if_neg (by omega), if_pos (by omega), getElem?_everywhere _ hplace]
      simp only [hahead, ahead_zero ⟨i, hplace⟩ hplace]
      simp [Nat.add_comm 1, hi]
    · have hplace : xs.size - 1 < xs.size := by omega
      have hahead := ahead_eq (k := 1) ⟨xs.size - 1, hplace⟩
        (by rw [Nat.sub_add_cancel hpos, Nat.mod_self]) hpos
      rw [if_pos rfl, if_pos hplace, getElem?_everywhere _ hplace]
      simp only [hahead, ahead_zero ⟨_, hplace⟩ hplace]
    · rw [if_neg (by omega), if_neg (by omega), Array.getElem?_eq_none (by omega),
        Array.getElem?_eq_none (by rw [size_everywhere]; omega)]

theorem rectified_everywhere [Zero α] [LT α] [DecidableLT α] (f : (Nat → α) → α) (xs : Array α) :
    rectified (everywhere f xs) = everywhere (fun v => if 0 < f v then f v else 0) xs := by
  simp [rectified, everywhere, Array.map_ofFn]
  rfl

/-- If there is a level to compute, the next use of the pool takes sums of the length. -/
def Supplied (s : Settings) (n : Nat) (pool : ScratchPool (Sums α)) : Prop :=
  0 < s.level → pool.Offers fun sums => sums.sizes = (n, n)

theorem supplied_ofSize [Zero α] (s : Settings) (n workers : Nat) :
    Supplied s n (.ofSize workers (.ofSize n) : ScratchPool (Sums α)) :=
  fun _ => (ScratchPool.front_ofSize _ _).offers
    (Prod.ext Array.size_replicate Array.size_replicate)

/-- What is written at one place, from the values from this place on. -/
def formula [Zero α] [Add α] [Sub α] [Mul α] [LT α] [DecidableLT α] (c : α) (s : Settings)
    (v : Nat → α) : α :=
  let y := detail c s.level v
  if s.rectify then (if 0 < y then y else 0) else y

section Process

variable [Zero α] [Add α] [Sub α] [Mul α] [LT α] [DecidableLT α] (c : α) {s : Settings}
  {pool : ScratchPool (Sums α)} {sums : Sums α}

theorem rectify_everywhere (s : Settings) (xs : Array α) :
    (if s.rectify then rectified (everywhere (detail c s.level) xs)
      else everywhere (detail c s.level) xs) = everywhere (formula c s) xs := by
  unfold formula
  cases s.rectify with
  | false => rfl
  | true => simp [rectified_everywhere]

theorem process_of_level {i : Nat} (h : 0 < s.level) (hfree : pool.firstFree? = some (i, sums))
    (xs out : Array α) :
    process c s pool xs out = (waveletDetail c s.level xs out sums).map fun r =>
      (if s.rectify then rectified r.1 else r.1, pool.setSlot i ⟨r.2, false⟩) := by
  unfold process
  rw [if_pos h, ScratchPool.borrow_eq_of_firstFree hfree
    (fun sums => (waveletDetail c s.level xs out sums).map fun r => (r.2, r.1))]
  · cases waveletDetail c s.level xs out sums <;> rfl
  · intro sums rest
    cases waveletDetail c s.level xs out sums <;> rfl

theorem process_of_not_level (h : ¬0 < s.level) (xs out : Array α) :
    process c s pool xs out = .ok
      (if s.rectify then rectified (difference xs out) else difference xs out, pool) := by
  unfold process
  rw [if_neg h]
  rfl

/-- What is written is the formula at every place, whatever the output and the sums held. -/
theorem process_eq_ok {xs out : Array α} (hxs : xs.size = n) (hpool : Supplied s n pool)
    (hout : out.size = n) : ∃ pool',
      process c s pool xs out = .ok (everywhere (formula c s) xs, pool') ∧
        Supplied s n pool' := by
  rw [← rectify_everywhere]
  by_cases hlevel : 0 < s.level
  · obtain ⟨i, sums, hfree, hsums⟩ := hpool hlevel
    obtain ⟨sums', hdetail, hsizes⟩ := waveletDetail_eq_ok c (s.level - 1) hxs hout hsums
    rw [Nat.sub_add_cancel hlevel] at hdetail
    refine ⟨_, ?_, fun _ => ScratchPool.offers_setSlot hfree hsizes⟩
    rw [process_of_level c hlevel hfree, hdetail]
    rfl
  · have hzero : s.level = 0 := Nat.eq_zero_of_not_pos hlevel
    refine ⟨pool, ?_, hpool⟩
    rw [process_of_not_level c hlevel, difference_eq (hout.trans hxs.symm), hzero]
    rfl

end Process

section Exact

variable {R : Type} [CommRing R] (c : R)

theorem smooth_eq (level : Nat) (v : Nat → R) :
    smooth c level v = c ^ level * ∑ k ∈ Finset.range (2 ^ level), v k := by
  induction level generalizing v with
  | zero => simp [smooth]
  | succ level ih =>
    rw [smooth, ih, ih, Nat.two_pow_succ, Finset.sum_range_add]
    simp only [Nat.add_comm (2 ^ level)]
    ring

theorem detail_eq (level : Nat) (v : Nat → R) :
    detail c (level + 1) v = c ^ (level + 1) *
      (∑ k ∈ Finset.Ico (2 ^ level) (2 ^ (level + 1)), v k -
        ∑ k ∈ Finset.range (2 ^ level), v k) := by
  rw [detail, smooth_eq, smooth_eq, Finset.sum_Ico_eq_sum_range, Nat.two_pow_succ,
    Nat.add_sub_cancel]
  simp only [Nat.add_comm (2 ^ level)]
  ring

/-- In exact arithmetic the detail at a level is, up to a power of the factor, the difference of two
sums over values next to each other, half as many in each as the level reaches; they are counted in
a circle, over and over where the signal is shorter. -/
theorem process_detail [LT R] [DecidableLT R] {s : Settings} (hlevel : 1 ≤ s.level)
    (hrectify : s.rectify = false) {pool : ScratchPool (Sums R)} {xs out : Array R}
    (hpool : Supplied s xs.size pool) (hout : out.size = xs.size) : ∃ ys pool',
      process c s pool xs out = .ok (ys, pool') ∧ Supplied s xs.size pool' ∧
        ys.size = xs.size ∧ ∀ i : Fin xs.size, ys[i.val]? = some (c ^ s.level *
          (∑ k ∈ Finset.Ico (2 ^ (s.level - 1)) (2 ^ s.level), ahead xs k i -
            ∑ k ∈ Finset.range (2 ^ (s.level - 1)), ahead xs k i)) := by
  obtain ⟨pool', hprocess, hpool'⟩ := process_eq_ok c rfl hpool hout
  refine ⟨_, pool', hprocess, hpool', size_everywhere _ xs, fun i => ?_⟩
  have hdetail := detail_eq c (s.level - 1) (ahead xs · i)
  rw [Nat.sub_add_cancel hlevel] at hdetail
  rw [getElem?_everywhere _ i.isLt, formula, hrectify, ← hdetail]
  simp

/-- Three integers at level two, where a sum reaches around the end and meets values twice. -/
theorem process_detail_triple : ∃ pool',
    process (3 : ℤ) { level := 2 } (.ofSize 1 (.ofSize 3)) #[1, 2, 4] #[0, 0, 0] =
      .ok (#[18, -27, 9], pool') := by
  have hpool : Supplied { level := 2 } (#[1, 2, 4] : Array ℤ).size
      (.ofSize 1 (.ofSize 3) : ScratchPool (Sums ℤ)) := supplied_ofSize _ 3 1
  have hout : (#[0, 0, 0] : Array ℤ).size = (#[1, 2, 4] : Array ℤ).size := rfl
  obtain ⟨ys, pool', hprocess, -, hsize, hvalues⟩ :=
    process_detail (3 : ℤ) (by decide) rfl hpool hout
  refine ⟨pool', hprocess.trans ?_⟩
  have hys : ys = #[18, -27, 9] := by
    apply Array.ext_getElem?
    intro i
    match i with
    | 0 => exact (hvalues 0).trans (by decide)
    | 1 => exact (hvalues 1).trans (by decide)
    | 2 => exact (hvalues 2).trans (by decide)
    | i + 3 => exact Array.getElem?_eq_none (hsize ▸ Nat.le_add_left 3 i)
  rw [hys]

end Exact

end Difference
end Timbre
