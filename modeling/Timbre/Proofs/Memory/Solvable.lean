import Timbre.Proofs.Memory.Solving
import Timbre.Proofs.Memory.Words

/-! # Both strategies solve every tree

Main statement: a tree whose order makes sense and whose items differ is solved by first fit and by
the sequential strategy, as long as all bytes together are within the largest size (`solve_total`).
First fit never takes more than the sequential strategy does. A tree that children were only added
to has such an order.
-/
namespace Timbre.Memory

namespace Tree

/-- The trees that come from a root by adding children and by editing the memory of nodes; the order
is the one in which the nodes were added. -/
inductive Grown : Tree → Prop
  | ofRoot (size item : Nat) : Grown (.ofRoot size item)
  | addChild {t t' : Tree} {parent size item i : Nat} :
    Grown t → t.addChild parent size item = .ok (t', i) → Grown t'
  | edit {t t' : Tree} {i : Nat} (f : Block → Block) :
    Grown t → t.edit i f = .ok t' → Grown t'

namespace Grown

variable {t : Tree}

theorem reachable (h : t.Grown) : t.Reachable := by
  induction h with
  | ofRoot size item => exact .ofRoot size item
  | addChild _ he ih => exact ih.addChild he
  | edit f _ he ih => exact ih.edit f he

theorem order_eq (h : t.Grown) : t.order = List.range t.size := by
  induction h with
  | ofRoot size item => rfl
  | addChild _ he ih =>
    obtain ⟨p, -, -, horder, -⟩ := addChild_eq_ok_iff.1 he
    rw [horder, size_addChild he, List.range_succ, ih]
  | edit f _ he ih => rw [order_edit he, size_edit he, ih]

theorem ordered (h : t.Grown) : t.Ordered := h.reachable.linked.ordered h.order_eq

end Grown

section Solve

variable {t : Tree} (ht : t.Linked) (ho : t.Ordered) (hitems : t.ItemsDistinct)
  (htotal : t.unshared ≤ maxSize)
include ht ho hitems htotal

/-- Whatever packs the ranges of a sensible order solves the tree. -/
theorem solve_of_packed (strategy : Strategy) {placed : List Placed}
    (hplace : strategy.place t ⟨t.spans⟩ = addressList t placed)
    (hpacked : t.Packed t.order placed) :
    solve strategy none t = ⟨t.assign (addressList t placed),
      .ok ⟨(t.assign (addressList t placed)).footprint, t.unshared, strategy.name⟩, []⟩ := by
  have hl : t.liveness = .ok ⟨t.spans⟩ := (liveness_eq_ok_iff ht).2 ⟨ho, rfl⟩
  have hvalid : (t.assign (addressList t placed)).validate = true :=
    (validate_assign_iff ht _).2 (hpacked.valid ho hitems htotal)
  have hp : Proposes strategy t (addressList t placed) :=
    ⟨⟨_, hl, hplace⟩, hitems, length_addressList t placed⟩
  rw [hp.solve_eq, if_pos hvalid, unshared_assign]

end Solve

/-- Both strategies solve every tree with a sensible order and items of its own, and the sums of
addresses and sizes on the way stay within the largest size. The sequential strategy takes all
bytes, first fit no more than that. -/
theorem solve_total {t : Tree} (h : t.Reachable) : (t.Grown → ∃ l, t.liveness = .ok l) ∧
    ∀ l, t.liveness = .ok l → t.ItemsDistinct → t.unshared ≤ maxSize →
      (∃ placed, FirstFit.runByWords t l = some placed ∧
        (solve .firstFit none t).state = t.assign (addressList t placed) ∧
        ∃ footprint ≤ t.unshared,
          (solve .firstFit none t).answer = .ok ⟨footprint, t.unshared, "first-fit"⟩) ∧
      ∃ placed, Sequential.runByWords t = some placed ∧
        (solve .sequential none t).state = t.assign (addressList t placed) ∧
        (solve .sequential none t).answer = .ok ⟨t.unshared, t.unshared, "sequential"⟩ := by
  have ht := h.linked
  refine ⟨fun hgrown => (isOk_liveness_iff ht).2 hgrown.ordered, ?_⟩
  intro l hl hitems htotal
  obtain ⟨ho, rfl⟩ := (liveness_eq_ok_iff ht).1 hl
  constructor
  · have hpacked := FirstFit.run_packed ht ho
    have hsolve := solve_of_packed ht ho hitems htotal .firstFit rfl hpacked
    refine ⟨_, FirstFit.runByWords_eq ht ho htotal, ?_, _, hpacked.footprint_le ho, ?_⟩
    · rw [hsolve]
    · rw [hsolve]
      rfl
  · have hpacked := Sequential.run_packed t
    have hsolve := solve_of_packed ht ho hitems htotal .sequential rfl hpacked
    refine ⟨_, Sequential.runByWords_eq ho htotal, ?_, ?_⟩
    · rw [hsolve]
    · rw [hsolve, Sequential.footprint_run ho htotal]
      rfl

/-- The last of three stages in a row takes the place of the first one. -/
theorem solve_total_threeInARow :
    (∃ placed, FirstFit.runByWords (threeInARow 0) ⟨(threeInARow 0).spans⟩ = some placed ∧
      (solve .firstFit none (threeInARow 0)).state =
        (threeInARow 0).assign (addressList (threeInARow 0) placed) ∧
      ∃ footprint ≤ 12, (solve .firstFit none (threeInARow 0)).answer =
        .ok ⟨footprint, 12, "first-fit"⟩) ∧
    ∃ placed, Sequential.runByWords (threeInARow 0) = some placed ∧
      (solve .sequential none (threeInARow 0)).state =
        (threeInARow 0).assign (addressList (threeInARow 0) placed) ∧
      (solve .sequential none (threeInARow 0)).answer = .ok ⟨12, 12, "sequential"⟩ :=
  (solve_total (reachable_threeInARow 0)).2 ⟨(threeInARow 0).spans⟩ (by decide) (by decide)
    (by decide)

example : (solve .firstFit none (threeInARow 0)).answer = .ok ⟨8, 12, "first-fit"⟩ := by cbv

end Tree

end Timbre.Memory
