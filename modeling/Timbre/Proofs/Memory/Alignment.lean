import Timbre.Proofs.Memory.Placing
import Timbre.Proofs.Memory.Proposals

/-! # Aligned layouts

First fit starts a node at zero or where the range of another one ends. So if the sizes of all nodes
are multiples of some number, the ends of every range are: a gap that is used again starts where a
range ended, and a range ends a size behind its start. The footprint is one of these ends.
-/
namespace Timbre.Memory

theorem dvd_foldl_max {α : Type} {a : Nat} (f : α → Nat) (xs : List α) {top : Nat} (htop : a ∣ top)
    (h : ∀ x ∈ xs, a ∣ f x) : a ∣ xs.foldl (fun top x => max top (f x)) top := by
  induction xs generalizing top with
  | nil => exact htop
  | cons x xs ih =>
    obtain ⟨hx, hxs⟩ := List.forall_mem_cons.1 h
    have hmax : a ∣ max top (f x) := by
      rcases Nat.le_total top (f x) with hle | hle
      · rwa [Nat.max_eq_right hle]
      · rwa [Nat.max_eq_left hle]
    exact ih hmax hxs

/-- Both ends of a range are multiples of a number. -/
structure Placed.Multiple (a : Nat) (p : Placed) : Prop where
  start : a ∣ p.start
  stop : a ∣ p.stop

namespace FirstFit

variable {a : Nat} {t : Tree} {l : Liveness} {placed : List Placed} {i : Nat}

theorem dvd_address {busy : List Placed} (h : ∀ p ∈ busy, a ∣ p.stop) (size : Nat) :
    a ∣ address busy size := by
  obtain ⟨hmem, -⟩ := address_spec busy size
  rcases mem_candidates.1 hmem with hzero | ⟨p, hp, hstop⟩
  · exact hzero ▸ Nat.dvd_zero a
  · exact hstop ▸ h p hp

theorem step_multiple (hsize : a ∣ t.sizeOf i) (h : ∀ p ∈ placed, p.Multiple a) :
    ∀ p ∈ step t l placed i, p.Multiple a := by
  unfold step
  split
  · exact h
  · have hbusy : ∀ p ∈ busy t l placed i, a ∣ p.stop := fun p hp => (h p (mem_busy.1 hp).1).stop
    have hstart := dvd_address hbusy (t.sizeOf i)
    intro p hp
    rcases List.mem_append.1 hp with hp | hp
    · exact h p hp
    · rw [List.mem_singleton.1 hp]
      exact ⟨hstart, Nat.dvd_add hstart hsize⟩

theorem foldl_step_multiple (hsizes : ∀ i, a ∣ t.sizeOf i) (rest : List Nat)
    (h : ∀ p ∈ placed, p.Multiple a) : ∀ p ∈ rest.foldl (step t l) placed, p.Multiple a := by
  induction rest generalizing placed with
  | nil => exact h
  | cons i rest ih => exact ih (step_multiple (hsizes i) h)

theorem run_multiple (hsizes : ∀ i, a ∣ t.sizeOf i) (l : Liveness) :
    ∀ p ∈ run t l, p.Multiple a :=
  foldl_step_multiple hsizes t.order fun _ hp => absurd hp List.not_mem_nil

end FirstFit

section Addresses

variable {a : Nat} {t : Tree} {placed : List Placed}

theorem dvd_of_mem_addressList (h : ∀ p ∈ placed, p.Multiple a) {address : Nat}
    (hmem : address ∈ addressList t placed) : a ∣ address := by
  obtain ⟨i, -, rfl⟩ := List.mem_map.1 hmem
  cases hfind : placed.find? fun p => p.node == i with
  | none => exact Nat.dvd_zero a
  | some p => exact (h p (List.mem_of_find?_eq_some hfind)).start

theorem addressList_of_forall_ne {i : Nat} (hi : i < t.size) (h : ∀ p ∈ placed, p.node ≠ i) :
    (addressList t placed)[i]? = some 0 := by
  have hnone : placed.find? (fun p => p.node == i) = none :=
    List.find?_eq_none.2 fun p hp => by simpa using h p hp
  simp [addressList, List.getElem?_range hi, hnone]

end Addresses

namespace Tree

variable {a : Nat} {t : Tree}

theorem dvd_sizeOf (h : ∀ n ∈ t.nodes, a ∣ n.size) (i : Nat) : a ∣ t.sizeOf i := by
  cases hn : t.nodes[i]? with
  | none => simp [sizeOf, hn]
  | some n =>
    rw [sizeOf_of_getElem? hn]
    exact h n (Array.mem_of_getElem? hn)

theorem dvd_footprint (h : ∀ n ∈ t.nodes, a ∣ n.size ∧ ∀ address, n.address = some address →
    a ∣ address) : a ∣ t.footprint := by
  refine dvd_foldl_max _ _ (Nat.dvd_zero a) fun n hn => ?_
  obtain ⟨hsize, haddress⟩ := h n (Array.mem_toList_iff.1 (List.mem_of_mem_filter hn))
  cases hrange : n.range? with
  | none => exact Nat.dvd_zero a
  | some range =>
    obtain ⟨start, stop⟩ := range
    obtain ⟨hstart, -, rfl⟩ := range?_eq_some_iff.1 hrange
    exact Nat.dvd_add (haddress start hstart) hsize

end Tree

theorem Strategy.dvd_of_mem_place {a : Nat} {t : Tree} (hsizes : ∀ n ∈ t.nodes, a ∣ n.size)
    (l : Liveness) {address : Nat} (hmem : address ∈ Strategy.firstFit.place t l) : a ∣ address :=
  dvd_of_mem_addressList (FirstFit.run_multiple (Tree.dvd_sizeOf hsizes) l) hmem

section Solve

variable {a : Nat} {t : Tree} {limit : Option Nat} {layout : Layout} (ht : t.Linked)
  (hsizes : ∀ n ∈ t.nodes, a ∣ n.size) (h : (solve .firstFit limit t).answer = .ok layout)
include ht hsizes h

/-- A tree that is solved has an address for every node, a multiple if all sizes are, and zero for a
node that takes no memory. -/
theorem address_of_solve {i : Nat} {n : Node}
    (hn : (solve .firstFit limit t).state.nodes[i]? = some n) :
    ∃ address, n.address = some address ∧ a ∣ address ∧ (n.size = 0 → address = 0) := by
  obtain ⟨l, hl, hstate, -⟩ := admitted_of_ok ht h
  obtain ⟨ho, rfl⟩ := (Tree.liveness_eq_ok_iff ht).1 hl.liveness
  rw [hstate] at hn
  obtain ⟨m, hm, rfl⟩ := Tree.getElem?_assign_eq_some _ hn
  have hlt : i < t.size := (Array.getElem?_eq_some_iff.1 hm).1
  have haddress := List.getElem?_eq_getElem (hl.length_eq.symm ▸ hlt)
  refine ⟨_, haddress, Strategy.dvd_of_mem_place hsizes _ (List.mem_of_getElem? haddress), ?_⟩
  intro hzero
  have hnone : ∀ p ∈ FirstFit.run t ⟨t.spans⟩, p.node ≠ i := by
    rintro p hp rfl
    have hmem := List.mem_map_of_mem (f := Placed.node) hp
    rw [(FirstFit.run_packed ht ho).nodes_eq, List.mem_filter, decide_eq_true_iff,
      Tree.sizeOf_of_getElem? hm] at hmem
    exact hmem.2 hzero
  exact Option.some_inj.1 (haddress.symm.trans (addressList_of_forall_ne hlt hnone))

theorem dvd_footprint_of_solve : a ∣ layout.footprint := by
  obtain ⟨l, hl, hstate, rfl⟩ := admitted_of_ok ht h
  rw [← hstate]
  refine Tree.dvd_footprint fun n hn => ?_
  obtain ⟨i, hi⟩ := Array.getElem?_of_mem hn
  obtain ⟨address, haddress, hdvd, -⟩ := address_of_solve ht hsizes h hi
  rw [hstate] at hi
  obtain ⟨m, hm, rfl⟩ := Tree.getElem?_assign_eq_some _ hi
  have hsize : a ∣ m.size := hsizes m (Array.mem_of_getElem? hm)
  refine ⟨hsize, fun address' haddress' => ?_⟩
  rw [haddress] at haddress'
  cases haddress'
  exact hdvd

end Solve

end Timbre.Memory
