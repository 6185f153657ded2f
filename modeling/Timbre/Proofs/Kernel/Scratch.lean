import Mathlib.Data.List.Basic
import Timbre.Fourier.Plan

/-! # Scratch values in use

Between two uses the first slot of a pool is free, so a use never blocks, and what it sees is the
value of that slot: how many slots there are makes no difference. Neither does it matter which slots
are busy, as long as one is free: a plan is supplied if the buffer that its next run takes has the
planned length, and a run that leaves a buffer of this length leaves the plan supplied.
-/
namespace Timbre

namespace ScratchPool

variable {α β : Type} {pool : ScratchPool α} {v : α}

@[simp] theorem size_setSlot (pool : ScratchPool α) (i : Nat) (slot : Slot α) :
    (pool.setSlot i slot).size = pool.size := by
  simp [size, setSlot]

theorem getElem?_setSlot_self {i : Nat} (slot : Slot α) (hi : i < pool.size) :
    (pool.setSlot i slot).slots[i]? = some slot :=
  Array.getElem?_setIfInBounds_self_of_lt hi

theorem getElem?_setSlot_ne {i j : Nat} (pool : ScratchPool α) (slot : Slot α) (h : i ≠ j) :
    (pool.setSlot i slot).slots[j]? = pool.slots[j]? :=
  Array.getElem?_setIfInBounds_ne h

/-- The first slot is free and holds the value. -/
def Front (pool : ScratchPool α) (v : α) : Prop := pool.slots[0]? = some ⟨v, false⟩

theorem front_ofSize (size : Nat) (v : α) : (ofSize size v).Front v := by
  have hpos : 0 < max size 1 := by omega
  simp [Front, ofSize, hpos]

theorem Front.setSlot (h : pool.Front v) (w : α) : (pool.setSlot 0 ⟨w, false⟩).Front w :=
  getElem?_setSlot_self _ (Array.getElem?_eq_some_iff.1 h).1

theorem firstFree?_eq_some_iff {i : Nat} : pool.firstFree? = some (i, v) ↔
    pool.slots[i]? = some ⟨v, false⟩ ∧ ∀ j < i, ∀ slot, pool.slots[j]? = some slot → slot.busy := by
  unfold firstFree?
  cases hfind : pool.slots.findIdx? (!·.busy) with
  | none =>
    have hbusy := Array.findIdx?_eq_none_iff.1 hfind
    constructor
    · intro h
      cases h
    · rintro ⟨hslot, -⟩
      simpa using hbusy _ (Array.mem_of_getElem? hslot)
  | some k =>
    obtain ⟨hk, hfree, hbefore⟩ := Array.findIdx?_eq_some_iff_getElem.1 hfind
    have hfree : pool.slots[k].busy = false := by simpa using hfree
    have hall : ∀ j < k, ∀ slot, pool.slots[j]? = some slot → slot.busy := by
      intro j hj slot hslot
      obtain ⟨hlt, rfl⟩ := Array.getElem?_eq_some_iff.1 hslot
      simpa using hbefore j hj
    have hget : pool.slots[k]? = some ⟨pool.slots[k].value, false⟩ := by
      rw [Array.getElem?_eq_getElem hk, ← hfree]
    dsimp only
    rw [hget, Option.map_some, Option.some_inj, Prod.mk.injEq]
    constructor
    · rintro ⟨rfl, rfl⟩
      exact ⟨hget, hall⟩
    · rintro ⟨hslot, hfirst⟩
      have heq : k = i := by
        rcases Nat.lt_trichotomy k i with hlt | heq | hgt
        · cases hfirst k hlt _ hget
        · exact heq
        · cases hall i hgt _ hslot
      subst heq
      rw [hget, Option.some_inj, Slot.mk.injEq] at hslot
      exact ⟨rfl, hslot.1⟩

theorem Front.firstFree?_eq (h : pool.Front v) : pool.firstFree? = some (0, v) :=
  firstFree?_eq_some_iff.2 ⟨h, fun j hj => absurd hj (Nat.not_lt_zero j)⟩

theorem firstFree?_setSlot {i : Nat} (h : pool.firstFree? = some (i, v)) (w : α) :
    (pool.setSlot i ⟨w, false⟩).firstFree? = some (i, w) := by
  obtain ⟨hslot, hbefore⟩ := firstFree?_eq_some_iff.1 h
  have hi := (Array.getElem?_eq_some_iff.1 hslot).1
  refine firstFree?_eq_some_iff.2 ⟨getElem?_setSlot_self _ hi, fun j hj slot hget => ?_⟩
  rw [getElem?_setSlot_ne _ _ (Nat.ne_of_gt hj)] at hget
  exact hbefore j hj slot hget

/-- A use that leaves the rest of the pool alone is a function of the value of the slot it takes. -/
theorem borrow_eq_of_firstFree {i : Nat} (h : pool.firstFree? = some (i, v))
    (g : α → Except Fault (α × β)) (use : α → ScratchPool α → Except Fault (α × ScratchPool α × β))
    (huse : ∀ v rest, use v rest = (g v).map fun r => (r.1, rest, r.2)) :
    pool.borrow use = (g v).map fun r => (pool.setSlot i ⟨r.1, false⟩, r.2) := by
  unfold borrow
  rw [h]
  dsimp only
  rw [huse]
  cases g v with
  | error e => rfl
  | ok r =>
    simp [Except.map, ScratchPool.setSlot]

/-- There is a free slot, and the one that the next use takes has a value as asked for. -/
def Offers (pool : ScratchPool α) (P : α → Prop) : Prop :=
  ∃ i v, pool.firstFree? = some (i, v) ∧ P v

theorem Front.offers {P : α → Prop} (h : pool.Front v) (hv : P v) : pool.Offers P :=
  ⟨0, v, h.firstFree?_eq, hv⟩

theorem offers_setSlot {P : α → Prop} {i : Nat} (h : pool.firstFree? = some (i, v)) {w : α}
    (hw : P w) : (pool.setSlot i ⟨w, false⟩).Offers P :=
  ⟨i, w, firstFree?_setSlot h w, hw⟩

/-- The next uses of the two pools take values of one shape. They may be any values of this shape,
in any slots, and nothing is said of the other slots. -/
def Refilled (shape : α → β) (pool other : ScratchPool α) : Prop :=
  ∃ b, pool.Offers (shape · = b) ∧ other.Offers (shape · = b)

theorem refilled_iff {shape : α → β} {b : β} {other : ScratchPool α}
    (h : pool.Offers (shape · = b)) : pool.Refilled shape other ↔ other.Offers (shape · = b) := by
  constructor
  · rintro ⟨c, ⟨i, v, hfree, rfl⟩, hother⟩
    obtain ⟨j, w, hfree', rfl⟩ := h
    rw [hfree] at hfree'
    cases hfree'
    exact hother
  · exact fun hother => ⟨b, h, hother⟩

end ScratchPool

namespace Plan

variable {α β : Type} {plan other : Plan α} {length : Nat}

theorem run_eq_of_firstFree {i : Nat} {buffer : Array (Bin α)}
    (h : plan.pool.firstFree? = some (i, buffer))
    (work : Array (Bin α) → Except Fault (Array (Bin α) × β)) :
    plan.run work = (work buffer).map fun r =>
      (r.2, { plan with pool := plan.pool.setSlot i ⟨r.1, false⟩ }) := by
  unfold run
  rw [ScratchPool.borrow_eq_of_firstFree h work _ fun v rest => by cases work v <;> rfl]
  cases work buffer <;> rfl

theorem run_eq {buffer : Array (Bin α)} (h : plan.pool.Front buffer)
    (work : Array (Bin α) → Except Fault (Array (Bin α) × β)) :
    plan.run work = (work buffer).map fun r =>
      (r.2, { plan with pool := plan.pool.setSlot 0 ⟨r.1, false⟩ }) :=
  run_eq_of_firstFree h.firstFree?_eq work

/-- The plan is for the transform, and its next run takes a buffer of the length. -/
structure Supplied (transform : Array (Bin α) → Array (Bin α)) (length : Nat) (plan : Plan α) :
    Prop where
  transform_eq : plan.transform = transform
  offers : plan.pool.Offers fun buffer => buffer.size = length

variable {transform : Array (Bin α) → Array (Bin α)}

theorem supplied_ofLength [Zero α] (transform : Array (Bin α) → Array (Bin α))
    (length workers : Nat) : (ofLength transform length workers).Supplied transform length :=
  ⟨rfl, (ScratchPool.front_ofSize _ _).offers Array.size_replicate⟩

/-- Work that does the same with every buffer of the planned length, and leaves one, can be run. -/
theorem Supplied.exists_run (h : plan.Supplied transform length)
    {work : Array (Bin α) → Except Fault (Array (Bin α) × β)} {left : Array (Bin α)} {result : β}
    (hwork : ∀ buffer, buffer.size = length → work buffer = .ok (left, result))
    (hleft : left.size = length) :
    ∃ plan', plan.run work = .ok (result, plan') ∧ plan'.Supplied transform length := by
  obtain ⟨i, buffer, hfree, hsize⟩ := h.offers
  refine ⟨{ plan with pool := plan.pool.setSlot i ⟨left, false⟩ }, ?_, h.transform_eq,
    ScratchPool.offers_setSlot hfree hleft⟩
  rw [run_eq_of_firstFree hfree, hwork buffer hsize]
  rfl

/-- Two plans for one transform, with buffers of one length. -/
def Refilled (plan other : Plan α) : Prop :=
  other.transform = plan.transform ∧ plan.pool.Refilled Array.size other.pool

theorem Supplied.refilled_iff (h : plan.Supplied transform length) :
    plan.Refilled other ↔ other.Supplied transform length := by
  unfold Refilled
  rw [ScratchPool.refilled_iff h.offers, h.transform_eq]
  exact ⟨fun hother => ⟨hother.1, hother.2⟩, fun hother => ⟨hother.transform_eq, hother.offers⟩⟩

/-- Two plans for one transform whose next uses see the same buffer. -/
structure Same (plan other : Plan α) : Prop where
  transform_eq : plan.transform = other.transform
  front : ∃ buffer, plan.pool.Front buffer ∧ other.pool.Front buffer

theorem same_ofLength [Zero α] (transform : Array (Bin α) → Array (Bin α))
    (length workers workers' : Nat) :
    (ofLength transform length workers).Same (ofLength transform length workers') :=
  ⟨rfl, _, ScratchPool.front_ofSize _ _, ScratchPool.front_ofSize _ _⟩

theorem Same.exists_run (h : plan.Same other)
    {work : Array (Bin α) → Except Fault (Array (Bin α) × β)} {result : β} {plan' : Plan α}
    (hrun : plan.run work = .ok (result, plan')) :
    ∃ other', other.run work = .ok (result, other') ∧ plan'.Same other' := by
  obtain ⟨buffer, hfront, hfront'⟩ := h.front
  rw [run_eq hfront] at hrun
  rw [run_eq hfront']
  cases hwork : work buffer with
  | error e =>
    rw [hwork] at hrun
    cases hrun
  | ok r =>
    rw [hwork] at hrun
    cases hrun
    exact ⟨_, rfl, h.transform_eq, r.1, hfront.setSlot _, hfront'.setSlot _⟩

end Plan

end Timbre
