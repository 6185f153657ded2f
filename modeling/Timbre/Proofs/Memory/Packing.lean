import Mathlib.Algebra.BigOperators.Group.List.Basic
import Mathlib.Algebra.GroupWithZero.Nat
import Mathlib.Data.List.Nodup
import Timbre.Proofs.Memory.Validity
import Timbre.Proofs.Traversal

/-! # Packed ranges

A strategy goes through the order and places one node after the other. What is placed at any time
is packed: every node so far that takes memory has one range of its length, no range reaches beyond
the bytes that all nodes so far take together, and ranges of conflicting nodes do not overlap.
Packed ranges of a whole order are a valid layout. Nothing is assumed of how a start is found except
that it clears what is in its way and lies within the bytes placed before.
-/
namespace Timbre.Memory

theorem foldl_max_le_iff {α : Type} (f : α → Nat) (xs : List α) (top bound : Nat) :
    xs.foldl (fun top x => max top (f x)) top ≤ bound ↔ top ≤ bound ∧ ∀ x ∈ xs, f x ≤ bound := by
  induction xs generalizing top with
  | nil => simp
  | cons x xs ih =>
    rw [List.foldl_cons, ih, List.forall_mem_cons, Nat.max_le, and_assoc]

theorem foldl_add_eq_sum {α : Type} (f : α → Nat) (xs : List α) (total : Nat) :
    xs.foldl (fun total x => total + f x) total = total + (xs.map f).sum := by
  induction xs generalizing total with
  | nil => simp
  | cons x xs ih =>
    rw [List.foldl_cons, ih, List.map_cons, List.sum_cons, Nat.add_assoc]

namespace Tree

variable {t : Tree} {nodes : List Nat} {placed : List Placed} {i : Nat}

def bytes (t : Tree) (nodes : List Nat) : Nat := (nodes.map t.sizeOf).sum

theorem bytes_append_singleton (t : Tree) (nodes : List Nat) (i : Nat) :
    t.bytes (nodes ++ [i]) = t.bytes nodes + t.sizeOf i := by
  simp [bytes]

theorem bytes_le_append (t : Tree) (nodes rest : List Nat) :
    t.bytes nodes ≤ t.bytes (nodes ++ rest) := by
  simp [bytes]

theorem sizeOf_of_getElem? {n : Node} (h : t.nodes[i]? = some n) : t.sizeOf i = n.size := by
  simp [sizeOf, h]

theorem unshared_eq_sum (t : Tree) : t.unshared = (t.nodes.toList.map (·.size)).sum := by
  rw [unshared, foldl_add_eq_sum, Nat.zero_add]

theorem bytes_eq_unshared (h : nodes.Perm (List.range t.size)) : t.bytes nodes = t.unshared := by
  have hsizes : t.nodes.toList.map (·.size) = (List.range t.size).map t.sizeOf :=
    map_toList_eq_map_range fun _ _ => sizeOf_of_getElem?
  rw [bytes, (h.map t.sizeOf).sum_eq, ← hsizes, unshared_eq_sum]

/-- The ranges of those of the nodes that take memory. -/
structure Packed (t : Tree) (nodes : List Nat) (placed : List Placed) : Prop where
  nodes_eq : placed.map (·.node) = nodes.filter fun i => t.sizeOf i ≠ 0
  stop_eq : ∀ p ∈ placed, p.stop = p.start + t.sizeOf p.node
  stop_le : ∀ p ∈ placed, p.stop ≤ t.bytes nodes
  apart : placed.Pairwise t.Apart

namespace Packed

theorem nil (t : Tree) : t.Packed [] [] :=
  ⟨rfl, fun _ h => absurd h List.not_mem_nil, fun _ h => absurd h List.not_mem_nil, .nil⟩

section Step

variable (h : t.Packed nodes placed)
include h

theorem node_mem {p : Placed} (hp : p ∈ placed) : p.node ∈ nodes := by
  have hmem : p.node ∈ nodes.filter fun i => t.sizeOf i ≠ 0 :=
    h.nodes_eq ▸ List.mem_map_of_mem hp
  exact List.mem_of_mem_filter hmem

theorem sizeOf_ne_zero {p : Placed} (hp : p ∈ placed) : t.sizeOf p.node ≠ 0 := by
  have hnode : p.node ∈ nodes.filter fun i => t.sizeOf i ≠ 0 :=
    h.nodes_eq ▸ List.mem_map_of_mem hp
  simpa using (List.mem_filter.1 hnode).2

theorem exists_range (hi : i ∈ nodes) (hsize : t.sizeOf i ≠ 0) : ∃ p ∈ placed, p.node = i := by
  have hmem : i ∈ placed.map (·.node) := by
    rw [h.nodes_eq, List.mem_filter]
    exact ⟨hi, decide_eq_true hsize⟩
  exact List.mem_map.1 hmem

theorem skip (hsize : t.sizeOf i = 0) : t.Packed (nodes ++ [i]) placed := by
  refine ⟨?_, h.stop_eq, ?_, h.apart⟩
  · rw [h.nodes_eq, List.filter_append]
    simp [hsize]
  · rw [bytes_append_singleton, hsize]
    exact h.stop_le

theorem place {start : Nat} (hsize : t.sizeOf i ≠ 0) (hstart : start ≤ t.bytes nodes)
    (hclears : ∀ p ∈ placed, p.node ≠ i → t.Conflict p.node i →
      p.stop ≤ start ∨ start + t.sizeOf i ≤ p.start) :
    t.Packed (nodes ++ [i]) (placed ++ [⟨i, start, start + t.sizeOf i⟩]) := by
  have hbytes := bytes_append_singleton t nodes i
  refine ⟨?_, ?_, ?_, ?_⟩
  · rw [List.map_append, h.nodes_eq, List.filter_append]
    simp [hsize]
  · intro p hp
    rcases List.mem_append.1 hp with hp | hp
    · exact h.stop_eq p hp
    · rw [List.mem_singleton.1 hp]
  · intro p hp
    rcases List.mem_append.1 hp with hp | hp
    · have := h.stop_le p hp
      omega
    · rw [List.mem_singleton.1 hp]
      dsimp only
      omega
  · rw [List.pairwise_append]
    refine ⟨h.apart, List.pairwise_singleton _ _, ?_⟩
    intro p hp q hq hne hconflict
    rw [List.mem_singleton.1 hq] at hne hconflict ⊢
    exact hclears p hp hne hconflict

end Step

section Order

variable (h : t.Packed t.order placed)
include h

theorem exists_address (hi : i ∈ t.order) (hlt : i < t.size) (hsize : t.sizeOf i ≠ 0) :
    ∃ p ∈ placed, p.node = i ∧ (addressList t placed)[i]? = some p.start := by
  obtain ⟨q, hq, hqi⟩ := h.exists_range hi hsize
  cases hfind : placed.find? fun p => p.node == i with
  | none =>
    have hnone := List.find?_eq_none.1 hfind q hq
    simp [hqi] at hnone
  | some p =>
    have hpi : p.node = i := by simpa using List.find?_some hfind
    refine ⟨p, List.mem_of_find?_eq_some hfind, hpi, ?_⟩
    simp [addressList, List.getElem?_range hlt, hfind]

/-- An order visits a node once, so the range found for a node is the one that was placed. -/
theorem address_eq (ho : t.Ordered) {p : Placed} (hp : p ∈ placed) :
    (addressList t placed)[p.node]? = some p.start := by
  have hmem := h.node_mem hp
  have hlt : p.node < t.size := List.mem_range.1 (ho.perm.mem_iff.1 hmem)
  have hunique : (placed.map (·.node)).Nodup := by
    rw [h.nodes_eq]
    exact (ho.perm.nodup_iff.2 List.nodup_range).filter _
  obtain ⟨q, hq, hqp, haddress⟩ := h.exists_address hmem hlt (h.sizeOf_ne_zero hp)
  obtain rfl := List.inj_on_of_nodup_map hunique hq hp hqp
  exact haddress

end Order

end Packed

theorem length_addressList (t : Tree) (placed : List Placed) :
    (addressList t placed).length = t.size := by
  simp [addressList]

section Assign

variable (addresses : List Nat)

theorem getElem?_nodes_assign (t : Tree) (i : Nat) : (t.assign addresses).nodes[i]? =
    (t.nodes[i]?).map fun n => { n with address := addresses[i]? } := by
  simp [assign]

theorem getElem?_assign_eq_some {n : Node} (h : (t.assign addresses).nodes[i]? = some n) :
    ∃ m, t.nodes[i]? = some m ∧ n = { m with address := addresses[i]? } := by
  rw [getElem?_nodes_assign] at h
  obtain ⟨m, hm, hn⟩ := Option.map_eq_some_iff.1 h
  exact ⟨m, hm, hn.symm⟩

theorem liveAt_of_assign {k : Nat} (h : (t.assign addresses).LiveAt i k) : t.LiveAt i k := by
  obtain ⟨n, hn, hk, hself, huse⟩ := h
  obtain ⟨m, hm, rfl⟩ := getElem?_assign_eq_some addresses hn
  exact ⟨m, hm, hk, hself, huse⟩

theorem conflict_of_assign {j : Nat} (h : (t.assign addresses).Conflict i j) : t.Conflict i j := by
  have hparent (k : Nat) := ((sameLinks_assign t addresses).2 k).1
  cases h with
  | parent h => exact .parent (hparent i ▸ h)
  | child h => exact .child (hparent j ▸ h)
  | siblings p hi hj => exact .siblings p (hparent i ▸ hi) (hparent j ▸ hj)
  | live k hi hj =>
    exact .live k (liveAt_of_assign addresses hi) (liveAt_of_assign addresses hj)

theorem Ordered.assign (h : t.Ordered) : (t.assign addresses).Ordered := by
  have hlinks := sameLinks_assign t addresses
  refine ⟨?_, h.starts, ?_⟩
  · rw [hlinks.1]
    exact h.perm
  · intro i p hp
    rw [(hlinks.2 i).1] at hp
    exact h.parents_first i p hp

theorem unshared_assign (t : Tree) : (t.assign addresses).unshared = t.unshared := by
  rw [unshared_eq_sum, unshared_eq_sum]
  congr 1
  apply List.ext_getElem?
  intro i
  rw [List.getElem?_map, List.getElem?_map, Array.getElem?_toList, Array.getElem?_toList,
    getElem?_nodes_assign, Option.map_map]
  rfl

end Assign

/-- Packed ranges of a whole order make a valid layout, as long as all bytes together have
addresses. -/
theorem Packed.valid (h : t.Packed t.order placed) (ho : t.Ordered) (hitems : t.ItemsDistinct)
    (htotal : t.unshared ≤ maxSize) : (t.assign (addressList t placed)).Valid := by
  have hbytes : t.bytes t.order = t.unshared := bytes_eq_unshared ho.perm
  have hrange (i : Nat) (m : Node) (hm : t.nodes[i]? = some m) (hpos : 0 < m.size) :
      ∃ p ∈ placed, p.node = i ∧ p.stop = p.start + m.size ∧ p.stop ≤ t.unshared ∧
        (addressList t placed)[i]? = some p.start := by
    have hlt : i < t.size := (Array.getElem?_eq_some_iff.1 hm).1
    have hsize := sizeOf_of_getElem? hm
    have hmem : i ∈ t.order := ho.perm.mem_iff.2 (List.mem_range.2 hlt)
    obtain ⟨p, hp, rfl, haddress⟩ := h.exists_address hmem hlt (by omega)
    have hstop := h.stop_eq p hp
    have hle := h.stop_le p hp
    exact ⟨p, hp, rfl, by omega, by omega, haddress⟩
  refine ⟨ho.assign _, ?_, ?_, ?_⟩
  · intro i j n m hn hm hitem
    obtain ⟨n', hn', rfl⟩ := getElem?_assign_eq_some _ hn
    obtain ⟨m', hm', rfl⟩ := getElem?_assign_eq_some _ hm
    exact itemsDistinct_iff.1 hitems i j n' m' hn' hm' hitem
  · intro i n hn hpos
    obtain ⟨m, hm, rfl⟩ := getElem?_assign_eq_some _ hn
    obtain ⟨p, -, -, hstop, hle, haddress⟩ := hrange i m hm hpos
    refine ⟨p.start, haddress, ?_⟩
    dsimp only
    omega
  · intro i j n m a b hij hn hm hpos hpos' hconflict ha hb
    obtain ⟨n', hn', rfl⟩ := getElem?_assign_eq_some _ hn
    obtain ⟨m', hm', rfl⟩ := getElem?_assign_eq_some _ hm
    obtain ⟨p, hp, hpi, hstop, -, haddress⟩ := hrange i n' hn' hpos
    obtain ⟨q, hq, hqj, hstop', -, haddress'⟩ := hrange j m' hm' hpos'
    have hpa : p.start = a := Option.some_inj.1 (haddress.symm.trans ha)
    have hqb : q.start = b := Option.some_inj.1 (haddress'.symm.trans hb)
    have hne : p.node ≠ q.node := by rw [hpi, hqj]; exact hij
    have hpq : p ≠ q := fun h => hne (congrArg Placed.node h)
    have hapart := h.apart.forall hp hq hpq hne
      (by rw [hpi, hqj]; exact conflict_of_assign _ hconflict)
    dsimp only
    omega

theorem footprint_le_iff {bound : Nat} : t.footprint ≤ bound ↔
    ∀ (i : Nat) n start stop, t.nodes[i]? = some n → 0 < n.size →
      n.range? = some (start, stop) → stop ≤ bound := by
  rw [footprint, foldl_max_le_iff]
  constructor
  · rintro ⟨-, hall⟩ i n start stop hn hpos hrange
    have hmem : n ∈ t.nodes.toList.filter (·.size != 0) := by
      rw [List.mem_filter, Array.mem_toList_iff]
      exact ⟨Array.mem_of_getElem? hn, by simpa using Nat.ne_of_gt hpos⟩
    have hle := hall n hmem
    rw [hrange] at hle
    exact hle
  · intro h
    refine ⟨Nat.zero_le _, fun n hn => ?_⟩
    rw [List.mem_filter, Array.mem_toList_iff] at hn
    obtain ⟨i, hi⟩ := Array.getElem?_of_mem hn.1
    have hpos : 0 < n.size := by
      have := hn.2
      simp only [bne_iff_ne] at this
      omega
    cases hrange : n.range? with
    | none => simp
    | some r => exact h i n r.1 r.2 hi hpos hrange

theorem le_footprint {n : Node} {start stop : Nat} (hn : t.nodes[i]? = some n) (hpos : 0 < n.size)
    (hrange : n.range? = some (start, stop)) : stop ≤ t.footprint :=
  footprint_le_iff.1 (Nat.le_refl _) i n start stop hn hpos hrange

section Footprint

variable (h : t.Packed t.order placed) (ho : t.Ordered)
include h ho

theorem Packed.footprint_le : (t.assign (addressList t placed)).footprint ≤ t.unshared := by
  rw [footprint_le_iff]
  intro i n start stop hn hpos hrange
  obtain ⟨m, hm, rfl⟩ := getElem?_assign_eq_some _ hn
  obtain ⟨haddress, -, rfl⟩ := range?_eq_some_iff.1 hrange
  have hlt : i < t.size := (Array.getElem?_eq_some_iff.1 hm).1
  have hmem : i ∈ t.order := ho.perm.mem_iff.2 (List.mem_range.2 hlt)
  have hsize := sizeOf_of_getElem? hm
  dsimp only at hpos haddress ⊢
  obtain ⟨p, hp, rfl, hstart⟩ := h.exists_address hmem hlt (by omega)
  have hstop := h.stop_eq p hp
  have hle := h.stop_le p hp
  have hbytes : t.bytes t.order = t.unshared := bytes_eq_unshared ho.perm
  rw [hstart, Option.some_inj] at haddress
  omega

theorem Packed.stop_le_footprint (htotal : t.unshared ≤ maxSize) {p : Placed} (hp : p ∈ placed) :
    p.stop ≤ (t.assign (addressList t placed)).footprint := by
  have hlt : p.node < t.size := List.mem_range.1 (ho.perm.mem_iff.1 (h.node_mem hp))
  have haddress := h.address_eq ho hp
  have hsize := h.sizeOf_ne_zero hp
  have hn : t.nodes[p.node]? = some t.nodes[p.node] := Array.getElem?_eq_getElem hlt
  have hbytes : t.bytes t.order = t.unshared := bytes_eq_unshared ho.perm
  have hle := h.stop_le p hp
  have hstop := h.stop_eq p hp
  rw [sizeOf_of_getElem? hn] at hsize hstop
  have hassigned := getElem?_nodes_assign (addressList t placed) t p.node
  rw [hn, Option.map_some] at hassigned
  have hrange : Block.range? { t.nodes[p.node].toBlock with
      address := (addressList t placed)[p.node]? } = some (p.start, p.stop) := by
    rw [range?_eq_some_iff]
    refine ⟨haddress, ?_, hstop⟩
    dsimp only
    omega
  exact le_footprint hassigned (Nat.pos_of_ne_zero hsize) hrange

end Footprint

end Tree

end Timbre.Memory
