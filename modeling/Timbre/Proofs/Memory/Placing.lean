import Timbre.Proofs.Memory.Packing

/-! # First fit and sequential placement

Both strategies keep the ranges packed, whatever the order and the conflicts. First fit looks only
at placed nodes in the way, at zero and at their ends; the highest end is always among them, so a
start is found, and it is no more than the bytes placed before. The sequential strategy starts every
node where the bytes before it end.
-/
namespace Timbre.Memory

theorem Placed.clears_eq_true_iff {p : Placed} {start size : Nat} :
    p.clears start size = true ↔ start + size ≤ p.start ∨ p.stop ≤ start := by
  rw [Placed.clears, Bool.or_eq_true, decide_eq_true_iff, decide_eq_true_iff]

namespace FirstFit

theorem mem_candidates {busy : List Placed} {start : Nat} :
    start ∈ candidates busy ↔ start = 0 ∨ ∃ p ∈ busy, p.stop = start := by
  rw [candidates, List.mem_mergeSort, List.mem_append, List.mem_map, List.mem_singleton]
  exact or_comm

/-- One candidate lies at or behind every end, so nothing is in the way there. -/
theorem exists_highest (busy : List Placed) :
    ∃ start ∈ candidates busy, ∀ p ∈ busy, p.stop ≤ start := by
  induction busy with
  | nil => exact ⟨0, mem_candidates.2 (.inl rfl), fun p h => absurd h List.not_mem_nil⟩
  | cons q busy ih =>
    obtain ⟨start, hstart, hall⟩ := ih
    rcases Nat.le_total q.stop start with hle | hle
    · refine ⟨start, ?_, List.forall_mem_cons.2 ⟨hle, hall⟩⟩
      rcases mem_candidates.1 hstart with hzero | ⟨p, hp, hstop⟩
      · exact mem_candidates.2 (.inl hzero)
      · exact mem_candidates.2 (.inr ⟨p, List.mem_cons_of_mem q hp, hstop⟩)
    · refine ⟨q.stop, mem_candidates.2 (.inr ⟨q, List.mem_cons_self, rfl⟩), ?_⟩
      intro p hp
      rcases List.mem_cons.1 hp with rfl | hp
      · exact Nat.le_refl _
      · exact Nat.le_trans (hall p hp) hle

theorem address_spec (busy : List Placed) (size : Nat) :
    address busy size ∈ candidates busy ∧ ∀ p ∈ busy, p.clears (address busy size) size = true := by
  unfold address
  cases hfind : (candidates busy).find? fun start => busy.all (·.clears start size) with
  | some start =>
    have hmem := List.mem_of_find?_eq_some hfind
    have hclears := List.find?_some hfind
    exact ⟨hmem, List.all_eq_true.1 hclears⟩
  | none =>
    obtain ⟨start, hmem, hhighest⟩ := exists_highest busy
    have hnone := List.find?_eq_none.1 hfind start hmem
    have hclears : busy.all (·.clears start size) = true := by
      rw [List.all_eq_true]
      intro p hp
      exact Placed.clears_eq_true_iff.2 (.inr (hhighest p hp))
    exact absurd hclears hnone

section Packed

open Timbre.Memory.Tree

variable {t : Tree} {nodes : List Nat} {placed : List Placed} {i : Nat}

theorem mem_busy {l : Liveness} {p : Placed} :
    p ∈ busy t l placed i ↔ p ∈ placed ∧ l.conflicts t i p.node = true := List.mem_filter

theorem candidate_le_bytes (h : t.Packed nodes placed) {l : Liveness} {start : Nat}
    (hmem : start ∈ candidates (busy t l placed i)) : start ≤ t.bytes nodes := by
  rcases mem_candidates.1 hmem with rfl | ⟨p, hp, rfl⟩
  · exact Nat.zero_le _
  · exact h.stop_le p (mem_busy.1 hp).1

variable (ht : t.Linked) (ho : t.Ordered)
include ht ho

theorem step_packed (h : t.Packed nodes placed) (hnodes : ∀ j ∈ nodes, j < t.size)
    (hi : i < t.size) : t.Packed (nodes ++ [i]) (step t ⟨t.spans⟩ placed i) := by
  unfold step
  split
  · rename_i hsize
    exact h.skip hsize
  · rename_i hsize
    obtain ⟨hmem, hclears⟩ := address_spec (busy t ⟨t.spans⟩ placed i) (t.sizeOf i)
    refine h.place hsize (candidate_le_bytes h hmem) ?_
    intro p hp hne hconflict
    have hlt := hnodes p.node (h.node_mem hp)
    have hconflicts : Liveness.conflicts ⟨t.spans⟩ t i p.node = true :=
      (conflicts_eq_true_iff ht ho hi hlt).2 ⟨hne.symm, hconflict.symm⟩
    have hclear := hclears p (mem_busy.2 ⟨hp, hconflicts⟩)
    exact (Placed.clears_eq_true_iff.1 hclear).symm

theorem foldl_step_packed (rest : List Nat) (h : t.Packed nodes placed)
    (hnodes : ∀ j ∈ nodes ++ rest, j < t.size) :
    t.Packed (nodes ++ rest) (rest.foldl (step t ⟨t.spans⟩) placed) := by
  induction rest generalizing nodes placed with
  | nil => simpa using h
  | cons i rest ih =>
    have hi : i < t.size := hnodes i (by simp)
    have hbefore : ∀ j ∈ nodes, j < t.size := fun j hj => hnodes j (List.mem_append_left _ hj)
    have hstep := step_packed ht ho h hbefore hi
    have happend : nodes ++ i :: rest = nodes ++ [i] ++ rest := by simp
    rw [happend] at hnodes ⊢
    exact ih hstep hnodes

theorem run_packed : t.Packed t.order (run t ⟨t.spans⟩) := by
  have hlt : ∀ j ∈ [] ++ t.order, j < t.size := fun j hj => List.mem_range.1 (ho.perm.mem_iff.1 hj)
  exact foldl_step_packed ht ho t.order (.nil t) hlt

end Packed

end FirstFit

namespace Sequential

open Timbre.Memory.Tree

variable {t : Tree} {nodes : List Nat} {acc : List Placed × Nat} {i : Nat}

/-- The ranges follow each other without a gap. -/
structure Stacked (t : Tree) (nodes : List Nat) (acc : List Placed × Nat) : Prop where
  packed : t.Packed nodes acc.1
  next_eq : acc.2 = t.bytes nodes
  /-- The last range ends where the bytes end. -/
  reached : acc.2 = 0 ∨ ∃ p ∈ acc.1, p.stop = acc.2

namespace Stacked

theorem nil (t : Tree) : Stacked t [] ([], 0) := ⟨.nil t, rfl, .inl rfl⟩

theorem step (h : Stacked t nodes acc) (i : Nat) :
    Stacked t (nodes ++ [i]) (Sequential.step t acc i) := by
  have hbytes := bytes_append_singleton t nodes i
  have hnext := h.next_eq
  unfold Sequential.step
  split
  · rename_i hsize
    exact ⟨h.packed.skip hsize, by omega, h.reached⟩
  · rename_i hsize
    refine ⟨h.packed.place hsize (Nat.le_of_eq hnext) ?_, ?_,
      .inr ⟨⟨i, acc.2, acc.2 + t.sizeOf i⟩, ?_, rfl⟩⟩
    · intro p hp _ _
      have hle := h.packed.stop_le p hp
      exact .inl (by omega)
    · dsimp only
      omega
    · exact List.mem_append_right _ List.mem_cons_self

theorem foldl_step (rest : List Nat) (h : Stacked t nodes acc) :
    Stacked t (nodes ++ rest) (rest.foldl (Sequential.step t) acc) := by
  induction rest generalizing nodes acc with
  | nil => simpa using h
  | cons i rest ih =>
    have happend : nodes ++ i :: rest = nodes ++ [i] ++ rest := by simp
    rw [happend]
    exact ih (h.step i)

end Stacked

theorem stacked_foldl (t : Tree) : Stacked t t.order (t.order.foldl (step t) ([], 0)) := by
  simpa using (Stacked.nil t).foldl_step t.order

theorem run_packed (t : Tree) : t.Packed t.order (run t) := (stacked_foldl t).packed

theorem footprint_run (ho : t.Ordered) (htotal : t.unshared ≤ maxSize) :
    (t.assign (addressList t (run t))).footprint = t.unshared := by
  apply Nat.le_antisymm
  · exact (run_packed t).footprint_le ho
  · have hbytes : t.bytes t.order = t.unshared := bytes_eq_unshared ho.perm
    have hnext := (stacked_foldl t).next_eq
    rcases (stacked_foldl t).reached with hzero | ⟨p, hp, hstop⟩
    · omega
    · have hle := (run_packed t).stop_le_footprint ho htotal hp
      omega

end Sequential

end Timbre.Memory
