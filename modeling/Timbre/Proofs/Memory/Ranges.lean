import Mathlib.Data.List.Nodup
import Timbre.Proofs.Memory.Links
import Timbre.Proofs.Traversal

/-! # Ranges of nodes

The ranges of a layout exist if every node that takes memory has an address whose range ends within
the address space; then they are the ranges of exactly these nodes, one each.
-/
namespace Timbre.Memory.Tree

variable {t : Tree}

/-- A placed node that takes memory, with the range that its address and its size give. -/
def IsRange (t : Tree) (r : Placed) : Prop :=
  ∃ n, t.nodes[r.node]? = some n ∧ 0 < n.size ∧ n.address = some r.start ∧
    r.start + n.size ≤ maxSize ∧ r.stop = r.start + n.size

theorem range?_eq_some_iff {b : Block} {start stop : Nat} : b.range? = some (start, stop) ↔
    b.address = some start ∧ start + b.size ≤ maxSize ∧ stop = start + b.size := by
  unfold Block.range?
  cases b.address with
  | none => simp
  | some a =>
    dsimp only
    split
    · rename_i h
      simp only [Option.some.injEq, Prod.mk.injEq]
      constructor
      · rintro ⟨rfl, rfl⟩
        exact ⟨rfl, h, rfl⟩
      · rintro ⟨rfl, -, rfl⟩
        exact ⟨rfl, rfl⟩
    · rename_i h
      simp only [reduceCtorEq, Option.some.injEq, false_iff, not_and]
      rintro rfl h'
      exact absurd h' h

theorem mem_zipIdx_nodes {n : Node} {i : Nat} :
    (n, i) ∈ t.nodes.toList.zipIdx ↔ t.nodes[i]? = some n := by
  simp [List.mem_zipIdx_iff_getElem?]

/-- The nodes that take memory, with their numbers. -/
def sized (t : Tree) : List (Node × Nat) := t.nodes.toList.zipIdx.filter fun p => p.1.size != 0

def toPlaced? (p : Node × Nat) : Option Placed := p.1.range?.map fun r => ⟨p.2, r.1, r.2⟩

theorem ranges?_eq_mapM (t : Tree) : t.ranges? = t.sized.mapM toPlaced? := rfl

theorem mem_sized {n : Node} {i : Nat} : (n, i) ∈ t.sized ↔ t.nodes[i]? = some n ∧ 0 < n.size := by
  simp [sized, mem_zipIdx_nodes, Nat.pos_iff_ne_zero]

theorem toPlaced?_eq_some_iff {n : Node} {i : Nat} {r : Placed} : toPlaced? (n, i) = some r ↔
    r.node = i ∧ n.address = some r.start ∧ r.start + n.size ≤ maxSize ∧
      r.stop = r.start + n.size := by
  simp only [toPlaced?, Option.map_eq_some_iff, Prod.exists, range?_eq_some_iff]
  constructor
  · rintro ⟨a, b, ⟨h, hle, rfl⟩, rfl⟩
    exact ⟨rfl, h, hle, rfl⟩
  · rintro ⟨rfl, h, hle, hstop⟩
    exact ⟨r.start, r.stop, ⟨h, hle, hstop⟩, rfl⟩

theorem nodup_sized (t : Tree) : t.sized.Nodup := by
  have hsnd : (t.nodes.toList.zipIdx.map Prod.snd).Nodup := by
    rw [List.zipIdx_map_snd]
    exact List.nodup_range'
  exact hsnd.of_map.filter _

theorem ranges?_eq_some {rs : List Placed} (h : t.ranges? = some rs) :
    (∀ r, r ∈ rs ↔ t.IsRange r) ∧ rs.Nodup := by
  rw [ranges?_eq_mapM, mapM_eq_some_iff] at h
  constructor
  · intro r
    have hmem : r ∈ rs ↔ some r ∈ t.sized.map toPlaced? := by simp [h]
    rw [hmem, List.mem_map]
    constructor
    · rintro ⟨⟨n, i⟩, hp, hr⟩
      obtain ⟨hn, hpos⟩ := mem_sized.1 hp
      obtain ⟨rfl, h⟩ := toPlaced?_eq_some_iff.1 hr
      exact ⟨n, hn, hpos, h⟩
    · rintro ⟨n, hn, hpos, h⟩
      exact ⟨(n, r.node), mem_sized.2 ⟨hn, hpos⟩, toPlaced?_eq_some_iff.2 ⟨rfl, h⟩⟩
  · refine List.Nodup.of_map some (h ▸ (nodup_sized t).map_on ?_)
    rintro ⟨n, i⟩ hp ⟨m, j⟩ hq he
    have hsome : (toPlaced? (n, i)).isSome := by
      have hmem : toPlaced? (n, i) ∈ rs.map some := h ▸ List.mem_map_of_mem hp
      obtain ⟨r, -, hr⟩ := List.mem_map.1 hmem
      simp [← hr]
    obtain ⟨r, hr⟩ := Option.isSome_iff_exists.1 hsome
    obtain ⟨rfl, -⟩ := toPlaced?_eq_some_iff.1 hr
    obtain ⟨rfl, -⟩ := toPlaced?_eq_some_iff.1 (he ▸ hr)
    have hn := (mem_sized.1 hp).1
    have hm := (mem_sized.1 hq).1
    rw [hn] at hm
    cases hm
    rfl

theorem isSome_ranges?_iff : (∃ rs, t.ranges? = some rs) ↔
    ∀ (i : Nat) n, t.nodes[i]? = some n → 0 < n.size →
      ∃ a, n.address = some a ∧ a + n.size ≤ maxSize := by
  constructor
  · rintro ⟨rs, h⟩ i n hn hpos
    rw [ranges?_eq_mapM, mapM_eq_some_iff] at h
    have hmem : toPlaced? (n, i) ∈ rs.map some :=
      h ▸ List.mem_map_of_mem (mem_sized.2 ⟨hn, hpos⟩)
    obtain ⟨r, -, hr⟩ := List.mem_map.1 hmem
    obtain ⟨-, ha, hle, -⟩ := toPlaced?_eq_some_iff.1 hr.symm
    exact ⟨r.start, ha, hle⟩
  · intro h
    have hall : ∀ p ∈ t.sized, ∃ r, toPlaced? p = some r := by
      rintro ⟨n, i⟩ hp
      obtain ⟨hn, hpos⟩ := mem_sized.1 hp
      obtain ⟨a, ha, hle⟩ := h i n hn hpos
      exact ⟨⟨i, a, a + n.size⟩, toPlaced?_eq_some_iff.2 ⟨rfl, ha, hle, rfl⟩⟩
    exact exists_mapM_eq_some hall

end Timbre.Memory.Tree
