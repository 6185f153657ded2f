import Mathlib.Algebra.Ring.Divisibility.Basic
import Mathlib.Data.Nat.GCD.Basic
import Timbre.Proofs.Kernel.Tiling

/-! # Leaves of a packet tree

A packet tree halves an array again and again, so the band of a leaf at depth `d` begins at a
multiple of its width. Only the sum of the widths is looked at when depths are accepted, which is
not enough: a half may stand between two quarters. Among the depths that are accepted, those of the
leaves of a tree are exactly the ones whose bands all begin at multiples of their widths:
`dyadic_iff_leaves`.
-/
namespace Timbre.Subbands

inductive PacketTree
  | leaf
  | split (low high : PacketTree)

namespace PacketTree

/-- The depths of the leaves below a node at a depth, from the lowest band up. -/
def depthsFrom : (depth : Nat) → PacketTree → List Nat
  | depth, leaf => [depth]
  | depth, split low high => low.depthsFrom (depth + 1) ++ high.depthsFrom (depth + 1)

def depths (t : PacketTree) : List Nat := t.depthsFrom 0

theorem exists_le_mem_depthsFrom (t : PacketTree) (depth : Nat) :
    ∃ d ∈ t.depthsFrom depth, depth ≤ d := by
  induction t generalizing depth with
  | leaf => exact ⟨depth, List.mem_singleton_self depth, Nat.le_refl depth⟩
  | split low high ihl _ =>
    obtain ⟨d, hd, hle⟩ := ihl (depth + 1)
    exact ⟨d, List.mem_append_left _ hd, Nat.le_of_succ_le hle⟩

end PacketTree

/-- The band is one of the `2 ^ depth` equal parts of the array. -/
def Dyadic (size depth : Nat) (b : Band) : Prop :=
  ∃ k, b.start = k * (size / 2 ^ depth) ∧ b.stop = (k + 1) * (size / 2 ^ depth)

/-- From the offset on, every part begins at a multiple of its width. -/
def Aligned (size : Nat) : (offset : Nat) → List Nat → Prop
  | _, [] => True
  | offset, depth :: depths =>
    size / 2 ^ depth ∣ offset ∧ Aligned size (offset + size / 2 ^ depth) depths

variable {size offset depth m : Nat} {depths : List Nat}

theorem dyadic_iff_dvd (size depth offset : Nat) :
    Dyadic size depth ⟨offset, offset + size / 2 ^ depth⟩ ↔ size / 2 ^ depth ∣ offset := by
  constructor
  · rintro ⟨k, hstart, -⟩
    exact Dvd.intro_left k hstart.symm
  · rintro ⟨k, rfl⟩
    exact ⟨k, Nat.mul_comm _ _, by rw [Nat.succ_mul, Nat.mul_comm]⟩

theorem forall₂_dyadic_iff (size offset : Nat) (depths : List Nat) :
    List.Forall₂ (Dyadic size) depths (bandsAt size offset depths) ↔
      Aligned size offset depths := by
  induction depths generalizing offset with
  | nil => exact ⟨fun _ => trivial, fun _ => .nil⟩
  | cons depth depths ih =>
    rw [bandsAt, List.forall₂_cons, dyadic_iff_dvd, ih, Aligned]

theorem covered_append (size : Nat) (depths depths' : List Nat) :
    covered size (depths ++ depths') = covered size depths + covered size depths' := by
  rw [covered, List.map_append, List.sum_append]
  rfl

theorem aligned_append_iff {depths' : List Nat} : Aligned size offset (depths ++ depths') ↔
    Aligned size offset depths ∧ Aligned size (offset + covered size depths) depths' := by
  induction depths generalizing offset with
  | nil => simp [Aligned, covered]
  | cons depth depths ih =>
    rw [List.cons_append, Aligned, Aligned, ih, covered_cons, and_assoc, Nat.add_assoc]

theorem two_mul_part (h : 2 ^ (depth + 1) ∣ size) :
    size / 2 ^ depth = 2 * (size / 2 ^ (depth + 1)) := by
  obtain ⟨w, rfl⟩ := h
  rw [Nat.mul_div_cancel_left w (Nat.two_pow_pos _), Nat.pow_succ, Nat.mul_assoc,
    Nat.mul_div_cancel_left _ (Nat.two_pow_pos _)]

/-- The leaves below a node cover its part, and if this begins at a multiple of its width then so do
theirs. -/
theorem PacketTree.aligned_depthsFrom (t : PacketTree)
    (hsplits : ∀ d ∈ t.depthsFrom depth, Splits size d) (halign : size / 2 ^ depth ∣ offset) :
    Aligned size offset (t.depthsFrom depth) ∧
      covered size (t.depthsFrom depth) = size / 2 ^ depth := by
  induction t generalizing depth offset with
  | leaf => exact ⟨⟨halign, trivial⟩, by simp [depthsFrom, covered]⟩
  | split low high ihl ihh =>
    rw [depthsFrom] at hsplits ⊢
    obtain ⟨hlow, hhigh⟩ := List.forall_mem_append.1 hsplits
    obtain ⟨d, hd, hle⟩ := low.exists_le_mem_depthsFrom (depth + 1)
    have hhalves := two_mul_part ((Nat.pow_dvd_pow 2 hle).trans (hlow d hd).2)
    have hhalf : size / 2 ^ (depth + 1) ∣ offset := (Dvd.intro_left 2 hhalves.symm).trans halign
    obtain ⟨hl, hcovered⟩ := ihl hlow hhalf
    obtain ⟨hh, hcovered'⟩ := ihh hhigh (hhalf.add (dvd_refl _))
    rw [aligned_append_iff, covered_append, hcovered, hcovered', hhalves, Nat.two_mul]
    exact ⟨⟨hl, hh⟩, rfl⟩

theorem Aligned.exists_append_of_dvd (h : Aligned size offset depths)
    (hdvd : ∀ d ∈ depths, size / 2 ^ d ∣ m) (hle : offset ≤ m)
    (hm : m ≤ offset + covered size depths) :
    ∃ low high, depths = low ++ high ∧ offset + covered size low = m := by
  induction depths generalizing offset with
  | nil => exact ⟨[], [], rfl, Nat.le_antisymm hle hm⟩
  | cons depth depths ih =>
    obtain ⟨hdepth, hdepths⟩ := List.forall_mem_cons.1 hdvd
    obtain ⟨halign, hrest⟩ := h
    rcases Nat.eq_or_lt_of_le hle with rfl | hlt
    · exact ⟨[], depth :: depths, rfl, rfl⟩
    · have hstep : offset + size / 2 ^ depth ≤ m := by
        obtain ⟨i, rfl⟩ := halign
        obtain ⟨j, rfl⟩ := hdepth
        rw [← Nat.mul_succ]
        exact Nat.mul_le_mul_left _ (Nat.lt_of_mul_lt_mul_left hlt)
      rw [covered_cons, ← Nat.add_assoc] at hm
      obtain ⟨low, high, rfl, hlow⟩ := ih hrest hdepths hstep hm
      exact ⟨depth :: low, high, rfl, by rw [covered_cons, ← Nat.add_assoc, hlow]⟩

theorem covered_pos (hsplits : ∀ d ∈ depths, Splits size d) (hne : depths ≠ []) :
    0 < covered size depths := by
  obtain ⟨d, rest, rfl⟩ := List.exists_cons_of_ne_nil hne
  rw [covered_cons]
  exact Nat.add_pos_left (hsplits d List.mem_cons_self).part_pos _

theorem eq_of_part_eq {d : Nat} (hd : Splits size d) (h : Splits size depth)
    (hpart : size / 2 ^ d = size / 2 ^ depth) : d = depth := by
  have hsize : size / 2 ^ depth * 2 ^ d = size / 2 ^ depth * 2 ^ depth := by
    rw [Nat.div_mul_cancel h.2, ← hpart, Nat.div_mul_cancel hd.2]
  exact Nat.pow_right_injective (Nat.le_refl 2) (Nat.eq_of_mul_eq_mul_left h.part_pos hsize)

theorem lt_of_part_lt {d : Nat} (h : size / 2 ^ d < size / 2 ^ depth) : depth < d := by
  by_contra hle
  have hpow : 2 ^ d ≤ 2 ^ depth := Nat.pow_le_pow_right (by decide) (Nat.not_lt.1 hle)
  exact Nat.not_le.2 h (Nat.div_le_div_left hpow (Nat.two_pow_pos d))

theorem part_lt_covered (hsplits : ∀ d ∈ depths, Splits size d) {d : Nat} (hd : d ∈ depths)
    (hother : depths ≠ [d]) : size / 2 ^ d < covered size depths := by
  obtain ⟨before, after, rfl⟩ := List.append_of_mem hd
  obtain ⟨hbefore, -, hafter⟩ := by simpa only [List.forall_mem_append, List.forall_mem_cons]
    using hsplits
  rw [covered_append, covered_cons]
  by_cases hnil : before = []
  · have hrest : after ≠ [] := fun h => hother (by rw [hnil, h, List.nil_append])
    have := covered_pos hafter hrest
    omega
  · have := covered_pos hbefore hnil
    omega

theorem Aligned.exists_halves (h : Aligned size offset depths)
    (hsplits : ∀ d ∈ depths, Splits size d) (hbelow : ∀ d ∈ depths, depth + 1 ≤ d)
    (hhalf : 2 ^ (depth + 1) ∣ size) (hoffset : size / 2 ^ (depth + 1) ∣ offset)
    (hcovered : covered size depths = size / 2 ^ depth) :
    ∃ low high, depths = low ++ high ∧ covered size low = size / 2 ^ (depth + 1) ∧
      covered size high = size / 2 ^ (depth + 1) := by
  have hhalves := two_mul_part hhalf
  have hdvd : ∀ d ∈ depths, size / 2 ^ d ∣ size / 2 ^ (depth + 1) := fun d hd =>
    Nat.div_dvd_div_left (hsplits d hd).2 (Nat.pow_dvd_pow 2 (hbelow d hd))
  obtain ⟨low, high, rfl, hlow⟩ := h.exists_append_of_dvd
    (fun d hd => (hdvd d hd).trans (hoffset.add (dvd_refl _))) (Nat.le_add_right _ _) (by omega)
  rw [covered_append] at hcovered
  exact ⟨low, high, rfl, by omega, by omega⟩

/-- Parts that cover the part of a node, and all begin at multiples of their widths, are those of
leaves below it: either there is one alone, or all are below and come in two halves. -/
theorem Aligned.exists_depthsFrom (h : Aligned size offset depths)
    (hsplits : ∀ d ∈ depths, Splits size d) (hdepth : Splits size depth)
    (hoffset : size / 2 ^ depth ∣ offset) (hcovered : covered size depths = size / 2 ^ depth) :
    ∃ t : PacketTree, depths = t.depthsFrom depth := by
  induction hlength : depths.length using Nat.strong_induction_on
    generalizing depth offset depths with
  | _ length ih =>
    by_cases hsingle : ∃ d, depths = [d]
    · obtain ⟨d, rfl⟩ := hsingle
      have hpart : size / 2 ^ d = size / 2 ^ depth := by simpa [covered] using hcovered
      have hd : d = depth := eq_of_part_eq (hsplits d (List.mem_singleton_self d)) hdepth hpart
      exact ⟨.leaf, by rw [hd, PacketTree.depthsFrom]⟩
    · have hbelow : ∀ d ∈ depths, depth + 1 ≤ d := fun d hd =>
        lt_of_part_lt (hcovered ▸ part_lt_covered hsplits hd fun heq => hsingle ⟨d, heq⟩)
      have hne : depths ≠ [] := fun hnil => by
        rw [hnil] at hcovered
        exact Nat.ne_of_lt hdepth.part_pos hcovered
      obtain ⟨d, hd⟩ := List.exists_mem_of_ne_nil depths hne
      have hhalf : Splits size (depth + 1) :=
        ⟨hdepth.1, (Nat.pow_dvd_pow 2 (hbelow d hd)).trans (hsplits d hd).2⟩
      have hmiddle : size / 2 ^ (depth + 1) ∣ offset :=
        (Dvd.intro_left 2 (two_mul_part hhalf.2).symm).trans hoffset
      obtain ⟨low, high, rfl, hlow, hhigh⟩ :=
        h.exists_halves hsplits hbelow hhalf.2 hmiddle hcovered
      obtain ⟨hsplitsLow, hsplitsHigh⟩ := List.forall_mem_append.1 hsplits
      obtain ⟨halignLow, halignHigh⟩ := aligned_append_iff.1 h
      have hlengths : 0 < low.length ∧ 0 < high.length := by
        constructor <;> refine List.length_pos_of_ne_nil fun hnil => ?_
        · rw [hnil] at hlow
          exact Nat.ne_of_lt hhalf.part_pos hlow
        · rw [hnil] at hhigh
          exact Nat.ne_of_lt hhalf.part_pos hhigh
      rw [List.length_append] at hlength
      obtain ⟨l, rfl⟩ := ih low.length (by omega) halignLow hsplitsLow hhalf hmiddle hlow rfl
      obtain ⟨r, rfl⟩ := ih high.length (by omega) halignHigh hsplitsHigh hhalf
        (hlow.symm ▸ hmiddle.add (dvd_refl _)) hhigh rfl
      exact ⟨.split l r, rfl⟩

theorem Fills.aligned_iff (h : Fills size depths) (hne : depths ≠ []) :
    Aligned size 0 depths ↔ ∃ t : PacketTree, depths = t.depths := by
  constructor
  · intro halign
    obtain ⟨d, hd⟩ := List.exists_mem_of_ne_nil depths hne
    have hroot : Splits size 0 := ⟨(h.splits d hd).1, Nat.one_dvd size⟩
    exact halign.exists_depthsFrom h.splits hroot (Nat.dvd_zero _)
      (h.covered_eq.trans (Nat.div_one size).symm)
  · rintro ⟨t, rfl⟩
    exact (t.aligned_depthsFrom h.splits (Nat.dvd_zero _)).1

/-- Of the depths that are accepted, those of the leaves of packet trees have dyadic bands, and no
others. -/
theorem dyadic_iff_leaves (depths : List Nat) (hne : depths ≠ []) (bands : List Band)
    (input known output : Format Signal) (count n : Nat)
    (h : (kernel.accept depths bands input known count).answer = .ok (output, n)) :
    List.Forall₂ (Dyadic input.size) depths (kernel.accept depths bands input known count).shape ↔
      ∃ t : PacketTree, depths = t.depths := by
  obtain ⟨htile, -, -⟩ := accept_eq_ok h
  obtain ⟨hfills, hbands⟩ := (tile_eq_ok_iff (lt_of_tile_eq_ok htile)).1 htile
  have hshape : (kernel.accept depths bands input known count).shape =
    bandsAt input.size 0 depths := hbands
  rw [hshape, forall₂_dyadic_iff, hfills.aligned_iff hne]

/-- Two quarters and a half of four values. -/
theorem dyadic_iff_leaves_fours : let a := kernel.accept [2, 2, 1] [] fours fours 1
    a.answer = .ok (fours.withSize 3, 1) ∧ List.Forall₂ (Dyadic 4) [2, 2, 1] a.shape := by
  refine ⟨rfl, (dyadic_iff_leaves [2, 2, 1] (by decide) [] fours fours _ 1 1 rfl).2 ?_⟩
  exact ⟨.split (.split .leaf .leaf) .leaf, rfl⟩

/-- A half between two quarters is accepted, although it begins at the first quarter. -/
theorem not_dyadic_of_accepted : let a := kernel.accept [2, 1, 2] [] fours fours 1
    a.answer = .ok (fours.withSize 3, 1) ∧ a.shape = [⟨0, 1⟩, ⟨1, 3⟩, ⟨3, 4⟩] ∧
      ¬List.Forall₂ (Dyadic 4) [2, 1, 2] a.shape := by
  refine ⟨rfl, rfl, fun h => ?_⟩
  obtain ⟨-, hrest⟩ := List.forall₂_cons.1 h
  obtain ⟨⟨k, hstart, -⟩, -⟩ := List.forall₂_cons.1 hrest
  have hodd : 1 = k * 2 := hstart
  omega

end Timbre.Subbands
