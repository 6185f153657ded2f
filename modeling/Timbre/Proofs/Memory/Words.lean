import Timbre.Proofs.Memory.Placing

/-! # Addresses as machine words

The two strategies once more, with every sum of an address and a size as a machine does it: a sum
beyond the largest size is a failure. Main statement: while all bytes together are within the
largest size no sum fails, and the ranges are the same (`FirstFit.runByWords_eq`,
`Sequential.runByWords_eq`). Whatever is tried as a start is at most the bytes placed before, so the
ends that are computed are at most the bytes with the node itself.
-/
namespace Timbre.Memory

def sum? (a b : Nat) : Option Nat := if a + b ≤ maxSize then some (a + b) else none

theorem sum?_eq_some {a b : Nat} (h : a + b ≤ maxSize) : sum? a b = some (a + b) := if_pos h

open Timbre.Memory.Tree

namespace FirstFit

/-- The first of the starts that clears everything in the way; the end behind every start that is
tried is computed. -/
def findByWords (busy : List Placed) (size : Nat) : (starts : List Nat) → Option (Option Nat)
  | [] => some none
  | start :: rest => do
    let stop ← sum? start size
    if busy.all fun p => stop ≤ p.start || p.stop ≤ start then return some start
    else findByWords busy size rest

def addressByWords (busy : List Placed) (size : Nat) : Option Nat := do
  match ← findByWords busy size (candidates busy) with
  | some start => return start
  | none => return ((busy.map (·.stop)).max?).getD 0

def stepByWords (t : Tree) (l : Liveness) (placed : List Placed) (i : Nat) :
    Option (List Placed) :=
  if t.sizeOf i = 0 then some placed
  else do
    let start ← addressByWords (busy t l placed i) (t.sizeOf i)
    let stop ← sum? start (t.sizeOf i)
    return placed ++ [⟨i, start, stop⟩]

def runByWords (t : Tree) (l : Liveness) : Option (List Placed) :=
  t.order.foldlM (stepByWords t l) []

theorem findByWords_eq {busy : List Placed} {size : Nat} {starts : List Nat}
    (h : ∀ start ∈ starts, start + size ≤ maxSize) :
    findByWords busy size starts =
      some (starts.find? fun start => busy.all (·.clears start size)) := by
  induction starts with
  | nil => rfl
  | cons start rest ih =>
    have hstart := h start List.mem_cons_self
    have hrest := ih fun s hs => h s (List.mem_cons_of_mem start hs)
    rw [findByWords, sum?_eq_some hstart, Option.bind_eq_bind, Option.bind_some, hrest,
      List.find?_cons]
    unfold Placed.clears
    split
    · rename_i hall
      rw [hall]
      rfl
    · rename_i hall
      rw [Bool.not_eq_true] at hall
      rw [hall]

theorem addressByWords_eq {busy : List Placed} {size : Nat}
    (h : ∀ start ∈ candidates busy, start + size ≤ maxSize) :
    addressByWords busy size = some (address busy size) := by
  rw [addressByWords, findByWords_eq h, Option.bind_eq_bind, Option.bind_some, address]
  cases (candidates busy).find? fun start => busy.all fun x => x.clears start size with
  | none => rfl
  | some start => rfl

section Run

variable {t : Tree} {nodes : List Nat} {placed : List Placed} {i : Nat}

theorem stepByWords_eq (l : Liveness) (h : t.Packed nodes placed)
    (hbytes : t.bytes (nodes ++ [i]) ≤ maxSize) :
    stepByWords t l placed i = some (step t l placed i) := by
  rw [bytes_append_singleton] at hbytes
  have hstarts : ∀ start ∈ candidates (busy t l placed i), start + t.sizeOf i ≤ maxSize := by
    intro start hstart
    have hle := candidate_le_bytes h hstart
    omega
  unfold stepByWords step
  split
  · rfl
  · have hmem := (address_spec (busy t l placed i) (t.sizeOf i)).1
    rw [addressByWords_eq hstarts, Option.bind_eq_bind, Option.bind_some,
      sum?_eq_some (hstarts _ hmem)]
    rfl

variable (ht : t.Linked) (ho : t.Ordered)
include ht ho

theorem foldlM_stepByWords_eq (rest : List Nat) (h : t.Packed nodes placed)
    (hnodes : ∀ j ∈ nodes ++ rest, j < t.size) (hbytes : t.bytes (nodes ++ rest) ≤ maxSize) :
    rest.foldlM (stepByWords t ⟨t.spans⟩) placed =
      some (rest.foldl (step t ⟨t.spans⟩) placed) := by
  induction rest generalizing nodes placed with
  | nil => rfl
  | cons i rest ih =>
    have hi : i < t.size := hnodes i (by simp)
    have hbefore : ∀ j ∈ nodes, j < t.size := fun j hj => hnodes j (List.mem_append_left _ hj)
    have happend : nodes ++ i :: rest = nodes ++ [i] ++ rest := by simp
    rw [happend] at hnodes hbytes
    have hprefix : t.bytes (nodes ++ [i]) ≤ maxSize :=
      Nat.le_trans (bytes_le_append t (nodes ++ [i]) rest) hbytes
    have hstep := step_packed ht ho h hbefore hi
    rw [List.foldlM_cons, stepByWords_eq ⟨t.spans⟩ h hprefix, Option.bind_eq_bind,
      Option.bind_some, ih hstep hnodes hbytes, List.foldl_cons]

/-- First fit computes no end beyond the largest size. -/
theorem runByWords_eq (htotal : t.unshared ≤ maxSize) :
    runByWords t ⟨t.spans⟩ = some (run t ⟨t.spans⟩) := by
  have hlt : ∀ j ∈ [] ++ t.order, j < t.size := fun j hj => List.mem_range.1 (ho.perm.mem_iff.1 hj)
  have hbytes : t.bytes ([] ++ t.order) ≤ maxSize := by
    rw [List.nil_append, bytes_eq_unshared ho.perm]
    exact htotal
  exact foldlM_stepByWords_eq ht ho t.order (.nil t) hlt hbytes

end Run

end FirstFit

namespace Sequential

def stepByWords (t : Tree) (acc : List Placed × Nat) (i : Nat) : Option (List Placed × Nat) :=
  if t.sizeOf i = 0 then some acc
  else do
    let next ← sum? acc.2 (t.sizeOf i)
    return (acc.1 ++ [⟨i, acc.2, next⟩], next)

def runByWords (t : Tree) : Option (List Placed) := do
  return (← t.order.foldlM (stepByWords t) ([], 0)).1

theorem stepByWords_eq {t : Tree} {nodes : List Nat} {acc : List Placed × Nat} {i : Nat}
    (h : Stacked t nodes acc) (hbytes : t.bytes (nodes ++ [i]) ≤ maxSize) :
    stepByWords t acc i = some (step t acc i) := by
  rw [bytes_append_singleton, ← h.next_eq] at hbytes
  unfold stepByWords step
  split
  · rfl
  · rw [sum?_eq_some hbytes]
    rfl

theorem foldlM_stepByWords_eq {t : Tree} {nodes : List Nat} {acc : List Placed × Nat}
    (rest : List Nat) (h : Stacked t nodes acc) (hbytes : t.bytes (nodes ++ rest) ≤ maxSize) :
    rest.foldlM (stepByWords t) acc = some (rest.foldl (step t) acc) := by
  induction rest generalizing nodes acc with
  | nil => rfl
  | cons i rest ih =>
    have happend : nodes ++ i :: rest = nodes ++ [i] ++ rest := by simp
    rw [happend] at hbytes
    have hprefix : t.bytes (nodes ++ [i]) ≤ maxSize :=
      Nat.le_trans (bytes_le_append t (nodes ++ [i]) rest) hbytes
    rw [List.foldlM_cons, stepByWords_eq h hprefix, Option.bind_eq_bind, Option.bind_some,
      ih (h.step i) hbytes, List.foldl_cons]

theorem runByWords_eq {t : Tree} (ho : t.Ordered) (htotal : t.unshared ≤ maxSize) :
    runByWords t = some (run t) := by
  have hbytes : t.bytes ([] ++ t.order) ≤ maxSize := by
    rw [List.nil_append, bytes_eq_unshared ho.perm]
    exact htotal
  rw [runByWords, foldlM_stepByWords_eq t.order (Stacked.nil t) hbytes]
  rfl

end Sequential

end Timbre.Memory
