import Mathlib.Data.List.Permutation
import Mathlib.Data.List.Sort
import Mathlib.Order.CompletePartialOrder
import Mathlib.Order.Interval.Set.Disjoint
import Timbre.Proofs.Memory.Solvable

/-! # First fit takes the lowest address

Only zero and the ends of busy ranges are tried, in rising order. Nothing lower is missed: from any
start that is free one can slide down to the highest end that is not above it, or to zero, and
meets no busy range on the way, so what is free there is free at a candidate that is no higher.
Main statement: the address of a node is the least start at which its bytes are disjoint from those
of every earlier node that conflicts with it (`isLeast_place`); so a gap that is large enough is
never passed over.
-/
namespace Timbre.Memory

namespace FirstFit

theorem exists_candidate_le {busy : List Placed} {size start : Nat}
    (hfree : ∀ p ∈ busy, p.clears start size = true) :
    ∃ low ∈ candidates busy, low ≤ start ∧ ∀ p ∈ busy, p.clears low size = true := by
  obtain ⟨low, hlow, hhighest⟩ := exists_highest (busy.filter fun p => p.stop ≤ start)
  have hcandidate : low ∈ candidates busy ∧ low ≤ start := by
    rcases mem_candidates.1 hlow with rfl | ⟨p, hp, rfl⟩
    · exact ⟨mem_candidates.2 (.inl rfl), Nat.zero_le start⟩
    · obtain ⟨hbusy, hle⟩ := List.mem_filter.1 hp
      exact ⟨mem_candidates.2 (.inr ⟨p, hbusy, rfl⟩), of_decide_eq_true hle⟩
  refine ⟨low, hcandidate.1, hcandidate.2, fun p hp => Placed.clears_eq_true_iff.2 ?_⟩
  rcases Placed.clears_eq_true_iff.1 (hfree p hp) with hbehind | hbefore
  · have := hcandidate.2
    omega
  · exact .inr (hhighest p (List.mem_filter.2 ⟨hp, decide_eq_true hbefore⟩))

theorem pairwise_candidates (busy : List Placed) : (candidates busy).Pairwise (· ≤ ·) :=
  List.pairwise_mergeSort' (· ≤ ·) _

/-- The search goes up, so what it finds is at most any candidate that is free. -/
theorem address_le_candidate {busy : List Placed} {size low : Nat} (hlow : low ∈ candidates busy)
    (hfree : ∀ p ∈ busy, p.clears low size = true) : address busy size ≤ low := by
  have hall : busy.all (·.clears low size) = true := List.all_eq_true.2 hfree
  unfold address
  cases hfind : (candidates busy).find? fun start => busy.all (·.clears start size) with
  | none => exact absurd hall (List.find?_eq_none.1 hfind low hlow)
  | some found =>
    obtain ⟨-, before, behind, hsplit, hskipped⟩ := List.find?_eq_some_iff_append.1 hfind
    have hsorted := pairwise_candidates busy
    rw [hsplit] at hlow hsorted
    rcases List.mem_append.1 hlow with hbefore | hlow
    · have hrefused : busy.all (·.clears low size) = false := by simpa using hskipped low hbefore
      rw [hall] at hrefused
      cases hrefused
    · rcases List.mem_cons.1 hlow with rfl | hbehind
      · exact Nat.le_refl _
      · exact List.rel_of_pairwise_cons (List.pairwise_append.1 hsorted).2.1 hbehind

theorem isLeast_address (busy : List Placed) (size : Nat) :
    IsLeast {start | ∀ p ∈ busy, p.clears start size = true} (address busy size) := by
  refine ⟨(address_spec busy size).2, fun start hfree => ?_⟩
  obtain ⟨low, hlow, hle, hclear⟩ := exists_candidate_le hfree
  exact Nat.le_trans (address_le_candidate hlow hclear) hle

theorem mem_foldl_step {t : Tree} {l : Liveness} {placed : List Placed} {p : Placed}
    (hp : p ∈ placed) (rest : List Nat) : p ∈ rest.foldl (step t l) placed := by
  induction rest generalizing placed with
  | nil => exact hp
  | cons i rest ih =>
    refine ih ?_
    unfold step
    split
    · exact hp
    · exact List.mem_append_left _ hp

/-- What is placed when it is the turn of a node. -/
def before (t : Tree) (l : Liveness) (i : Nat) : List Placed :=
  (t.order.take (t.position i)).foldl (step t l) []

end FirstFit

namespace Tree

/-- Node `j` is in the way of node `i`: it comes earlier, takes memory, and conflicts with it. -/
structure InWay (t : Tree) (l : Liveness) (i j : Nat) : Prop where
  earlier : t.position j < t.position i
  takes : t.sizeOf j ≠ 0
  conflicts : l.conflicts t i j = true

/-- The bytes are disjoint from the ranges of all nodes in the way of node `i`. -/
def Avoids (t : Tree) (l : Liveness) (addresses : List Nat) (i : Nat) (bytes : Set Nat) : Prop :=
  ∀ j start, t.InWay l i j → addresses[j]? = some start →
    Disjoint bytes (Set.Ico start (start + t.sizeOf j))

theorem Avoids.mono {t : Tree} {l : Liveness} {addresses : List Nat} {i : Nat}
    {bytes fewer : Set Nat} (h : t.Avoids l addresses i bytes) (hsub : fewer ⊆ bytes) :
    t.Avoids l addresses i fewer :=
  fun j start hj hstart => (h j start hj hstart).mono_left hsub

theorem lt_size_of_sizeOf {t : Tree} {i : Nat} (h : t.sizeOf i ≠ 0) : i < t.size := by
  by_contra hge
  have hnone : t.nodes[i]? = none := Array.getElem?_eq_none (Nat.le_of_not_lt hge)
  simp [sizeOf, hnone] at h

end Tree

namespace FirstFit

open Timbre.Memory.Tree

variable {t : Tree} (ht : t.Linked) (ho : t.Ordered) {i : Nat}
include ho

theorem mem_take_position_iff (hi : i < t.size) {j : Nat} :
    i ∈ t.order.take (t.position j) ↔ t.position i < t.position j :=
  List.mem_take_iff_idxOf_lt (ho.perm.mem_iff.2 (List.mem_range.2 hi))

/-- The run goes through what comes earlier, then the node, then the rest. -/
theorem run_eq (l : Liveness) (hi : i < t.size) :
    run t l = (t.order.drop (t.position i + 1)).foldl (step t l) (step t l (before t l i) i) := by
  have hlt : t.order.idxOf i < t.order.length :=
    List.idxOf_lt_length_iff.2 (ho.perm.mem_iff.2 (List.mem_range.2 hi))
  have hdrop : t.order.drop (t.position i) = i :: t.order.drop (t.position i + 1) := by
    rw [position, List.drop_eq_getElem_cons hlt, List.getElem_idxOf hlt]
  conv_lhs => rw [run, ← List.take_append_drop (t.position i) t.order, hdrop]
  rw [List.foldl_append, List.foldl_cons, before]

theorem mem_run_of_mem_before (l : Liveness) (hi : i < t.size) {p : Placed}
    (hp : p ∈ before t l i) : p ∈ run t l := by
  rw [run_eq ho l hi]
  refine mem_foldl_step ?_ _
  unfold step
  split
  · exact hp
  · exact List.mem_append_left _ hp

theorem mem_run (l : Liveness) (hsize : t.sizeOf i ≠ 0) :
    ⟨i, address (busy t l (before t l i) i) (t.sizeOf i),
      address (busy t l (before t l i) i) (t.sizeOf i) + t.sizeOf i⟩ ∈ run t l := by
  rw [run_eq ho l (lt_size_of_sizeOf hsize)]
  refine mem_foldl_step ?_ _
  rw [step, if_neg hsize]
  exact List.mem_append_right _ List.mem_cons_self

include ht

theorem before_packed (i : Nat) :
    t.Packed (t.order.take (t.position i)) (before t ⟨t.spans⟩ i) := by
  refine foldl_step_packed ht ho _ (.nil t) fun j hj => ?_
  rw [List.nil_append] at hj
  exact List.mem_range.1 (ho.perm.mem_iff.1 (List.mem_of_mem_take hj))

theorem clears_busy_iff (hsize : t.sizeOf i ≠ 0) {start : Nat} :
    (∀ p ∈ busy t ⟨t.spans⟩ (before t ⟨t.spans⟩ i) i, p.clears start (t.sizeOf i) = true) ↔
      t.Avoids ⟨t.spans⟩ (addressList t (run t ⟨t.spans⟩)) i
        (Set.Ico start (start + t.sizeOf i)) := by
  have hpacked := before_packed ht ho i
  have hi := lt_size_of_sizeOf hsize
  have hrange (p : Placed) (hp : p ∈ before t ⟨t.spans⟩ i) :
      (addressList t (run t ⟨t.spans⟩))[p.node]? = some p.start ∧
        (p.clears start (t.sizeOf i) = true ↔ Disjoint (Set.Ico start (start + t.sizeOf i))
          (Set.Ico p.start (p.start + t.sizeOf p.node))) := by
    have hstop := hpacked.stop_eq p hp
    have htakes := hpacked.sizeOf_ne_zero hp
    refine ⟨(run_packed ht ho).address_eq ho (mem_run_of_mem_before ho _ hi hp), ?_⟩
    rw [Placed.clears_eq_true_iff, Set.Ico_disjoint_Ico]
    omega
  constructor
  · intro hclears j b hj hb
    have hlt := lt_size_of_sizeOf hj.takes
    obtain ⟨p, hp, rfl⟩ :=
      hpacked.exists_range ((mem_take_position_iff ho hlt).2 hj.earlier) hj.takes
    obtain ⟨haddress, hiff⟩ := hrange p hp
    obtain rfl := Option.some_inj.1 (haddress.symm.trans hb)
    exact hiff.1 (hclears p (mem_busy.2 ⟨hp, hj.conflicts⟩))
  · intro havoids p hp
    obtain ⟨hbefore, hconflicts⟩ := mem_busy.1 hp
    have htakes := hpacked.sizeOf_ne_zero hbefore
    have hearlier := (mem_take_position_iff ho (lt_size_of_sizeOf htakes)).1
      (hpacked.node_mem hbefore)
    obtain ⟨haddress, hiff⟩ := hrange p hbefore
    exact hiff.2 (havoids p.node p.start ⟨hearlier, htakes, hconflicts⟩ haddress)

theorem isLeast_start (hsize : t.sizeOf i ≠ 0) :
    ∃ start, (addressList t (run t ⟨t.spans⟩))[i]? = some start ∧
      IsLeast {start | t.Avoids ⟨t.spans⟩ (addressList t (run t ⟨t.spans⟩)) i
        (Set.Ico start (start + t.sizeOf i))} start := by
  have haddress := (run_packed ht ho).address_eq ho (mem_run ho ⟨t.spans⟩ hsize)
  refine ⟨_, haddress, ?_⟩
  have hleast := isLeast_address (busy t ⟨t.spans⟩ (before t ⟨t.spans⟩ i) i) (t.sizeOf i)
  simpa only [clears_busy_iff ht ho hsize] using hleast

end FirstFit

namespace Tree

/-- First fit places every node that takes memory at the lowest address at which its bytes are
disjoint from the ranges of all earlier nodes that take memory and conflict with it. If it fits
between such ranges, it starts no later than there. While all bytes together are within the largest
size, no sum of an address and a size on the way is beyond it. -/
theorem isLeast_place {t : Tree} (h : t.Reachable) {l : Liveness} (hl : t.liveness = .ok l)
    (htotal : t.unshared ≤ maxSize) : ∃ placed, FirstFit.runByWords t l = some placed ∧
      Strategy.firstFit.place t l = addressList t placed ∧
      ∀ i, t.sizeOf i ≠ 0 → ∃ start, (addressList t placed)[i]? = some start ∧
        IsLeast {start | t.Avoids l (addressList t placed) i
          (Set.Ico start (start + t.sizeOf i))} start ∧
        ∀ low high, t.Avoids l (addressList t placed) i (Set.Ico low high) →
          low + t.sizeOf i ≤ high → start ≤ low := by
  have ht := h.linked
  obtain ⟨ho, rfl⟩ := (liveness_eq_ok_iff ht).1 hl
  refine ⟨FirstFit.run t ⟨t.spans⟩, FirstFit.runByWords_eq ht ho htotal, rfl, ?_⟩
  intro i hsize
  obtain ⟨start, haddress, hleast⟩ := FirstFit.isLeast_start ht ho hsize
  refine ⟨start, haddress, hleast, fun low high havoids hfits => ?_⟩
  exact hleast.2 (havoids.mono (Set.Ico_subset_Ico_right hfits))

/-- Two siblings with a child each. When the last child is placed the first sibling is released, and
leaves a gap of four bytes before the second one. -/
def leavesGap : Tree where
  nodes := #[{ size := 0, item := 0, parent := none, children := [1, 2] },
    { size := 4, item := 1, parent := some 0, children := [3] },
    { size := 8, item := 2, parent := some 0, children := [4] },
    { size := 2, item := 3, parent := some 1, children := [] },
    { size := 4, item := 4, parent := some 2, children := [] }]
  order := [0, 1, 2, 3, 4]

theorem reachable_leavesGap : leavesGap.Reachable := by
  have h₁ := (Reachable.ofRoot 0 0).addChild (show Tree.addChild _ 0 4 1 = .ok _ from rfl)
  have h₂ := h₁.addChild (show Tree.addChild _ 0 8 2 = .ok _ from rfl)
  have h₃ := h₂.addChild (show Tree.addChild _ 1 2 3 = .ok _ from rfl)
  exact h₃.addChild (show Tree.addChild _ 2 4 4 = .ok _ from rfl)

/-- The last child takes the gap, which it fills. -/
theorem isLeast_place_leavesGap :
    Strategy.firstFit.place leavesGap ⟨leavesGap.spans⟩ = [0, 0, 4, 12, 0] ∧
    IsLeast {start | leavesGap.Avoids ⟨leavesGap.spans⟩ [0, 0, 4, 12, 0] 4
      (Set.Ico start (start + 4))} 0 := by
  obtain ⟨placed, -, hplace, hall⟩ :=
    isLeast_place reachable_leavesGap (l := ⟨leavesGap.spans⟩) (by decide) (by decide)
  have haddresses : Strategy.firstFit.place leavesGap ⟨leavesGap.spans⟩ = [0, 0, 4, 12, 0] := by cbv
  obtain ⟨start, hstart, hleast, -⟩ := hall 4 (by decide)
  rw [← hplace, haddresses] at hstart hleast
  obtain rfl : 0 = start := Option.some_inj.1 hstart
  exact ⟨haddresses, hleast⟩

end Tree

end Timbre.Memory
