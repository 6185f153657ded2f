import Timbre.Proofs.Memory.Order

/-! # Live nodes

Whether the memory of a node is in use at a position of the order is said here without intervals;
under an order that makes sense the intervals of the analysis say the same, and two of them meet
exactly if both nodes are live at some position. A node that is live at all is live at its own
position, so no interval is empty.
-/
namespace Timbre.Memory

theorem Span.meets_iff {a b : Span} (ha : a.first ≤ a.last) (hb : b.first ≤ b.last) :
    a.meets b = true ↔ ∃ k, (a.first ≤ k ∧ k ≤ a.last) ∧ b.first ≤ k ∧ k ≤ b.last := by
  simp only [meets, Bool.and_eq_true, decide_eq_true_eq]
  constructor
  · rintro ⟨hab, hba⟩
    exact ⟨max a.first b.first, by omega⟩
  · rintro ⟨k, h⟩
    omega

namespace Tree

variable {t : Tree}

/-- Node `i` is live at position `k`: it stands there or before, and it is retained, a leaf, or has
a child there or after. -/
def LiveAt (t : Tree) (i k : Nat) : Prop :=
  ∃ n, t.nodes[i]? = some n ∧ k < t.order.length ∧
    (∃ a : Nat, t.order[a]? = some i ∧ a ≤ k) ∧
    (n.retained = true ∨ n.children = [] ∨
      ∃ c ∈ n.children, ∃ b : Nat, t.order[b]? = some c ∧ k ≤ b)

/-- The ways in which two nodes can be barred from sharing memory. -/
inductive Conflict (t : Tree) (i j : Nat) : Prop
  | parent (h : t.parent? i = some j)
  | child (h : t.parent? j = some i)
  | siblings (p : Nat) (hi : t.parent? i = some p) (hj : t.parent? j = some p)
  | live (k : Nat) (hi : t.LiveAt i k) (hj : t.LiveAt j k)

section Ordered

variable (ht : t.Linked) (ho : t.Ordered) {i : Nat} {n : Node} (hn : t.nodes[i]? = some n)
include ht ho hn

theorem position_lt_child {c : Nat} (hc : c ∈ n.children) :
    t.position i < t.position c ∧ c < t.size := by
  rw [← children_of_getElem? hn, ht.mem_children] at hc
  have hcs := lt_size_of_parent? hc
  have hi := (Array.getElem?_eq_some_iff.1 hn).1
  refine ⟨ho.parents_first c i hc _ _ ?_ ?_, hcs⟩
  · exact (getElem?_order_iff ho.perm).2 ⟨hi, rfl⟩
  · exact (getElem?_order_iff ho.perm).2 ⟨hcs, rfl⟩

theorem le_lastUse_iff {k : Nat} : k ≤ t.lastUse n ↔ k < t.size ∧
    (n.retained = true ∨ n.children = [] ∨ ∃ c ∈ n.children, k ≤ t.position c) := by
  have hpos := ht.size_pos
  unfold lastUse
  split
  · rename_i hr
    simp [hr]
    omega
  · rename_i hr
    cases hm : (n.children.map t.position).max? with
    | none =>
      rw [List.max?_eq_none_iff, List.map_eq_nil_iff] at hm
      simp [hm]
      omega
    | some last =>
      obtain ⟨hmem, hmax⟩ := List.max?_eq_some_iff.1 hm
      obtain ⟨c, hc, rfl⟩ := List.mem_map.1 hmem
      have hlt := position_lt ho.perm (position_lt_child ht ho hn hc).2
      have hne : n.children ≠ [] := List.ne_nil_of_mem hc
      simp only [hr, hne, false_or, Bool.false_eq_true]
      constructor
      · intro hk
        exact ⟨by omega, c, hc, hk⟩
      · rintro ⟨-, d, hd, hk⟩
        exact Nat.le_trans hk (hmax _ (List.mem_map_of_mem hd))

theorem position_le_lastUse : t.position i ≤ t.lastUse n := by
  have hi := (Array.getElem?_eq_some_iff.1 hn).1
  rw [le_lastUse_iff ht ho hn]
  refine ⟨position_lt ho.perm hi, Or.inr ?_⟩
  cases hc : n.children with
  | nil => exact Or.inl rfl
  | cons c cs =>
    refine Or.inr ⟨c, List.mem_cons_self, ?_⟩
    exact (position_lt_child ht ho hn (hc ▸ List.mem_cons_self)).1.le

theorem liveAt_iff {k : Nat} : t.LiveAt i k ↔ t.position i ≤ k ∧ k ≤ t.lastUse n := by
  have hi := (Array.getElem?_eq_some_iff.1 hn).1
  have hlen : t.order.length = t.size := ((perm_range_iff _ _).1 ho.perm).1
  have hchild : (∃ c ∈ n.children, ∃ b : Nat, t.order[b]? = some c ∧ k ≤ b) ↔
      ∃ c ∈ n.children, k ≤ t.position c := by
    refine exists_congr fun c => and_congr_right fun hc => ?_
    simp [getElem?_order_iff ho.perm, (position_lt_child ht ho hn hc).2]
  have hself : (∃ a : Nat, t.order[a]? = some i ∧ a ≤ k) ↔ t.position i ≤ k := by
    simp only [getElem?_order_iff ho.perm]
    exact ⟨fun ⟨a, ⟨_, ha⟩, hk⟩ => ha ▸ hk, fun hk => ⟨_, ⟨hi, rfl⟩, hk⟩⟩
  unfold LiveAt
  rw [le_lastUse_iff ht ho hn]
  simp only [hn, Option.some.injEq, exists_eq_left', hchild, hself, hlen]
  tauto

end Ordered

theorem meets_span_iff (ht : t.Linked) (ho : t.Ordered) {i j : Nat} (hi : i < t.size)
    (hj : j < t.size) : ((Liveness.span ⟨t.spans⟩ i).meets (Liveness.span ⟨t.spans⟩ j)) = true ↔
      ∃ k, t.LiveAt i k ∧ t.LiveAt j k := by
  have hn := Array.getElem?_eq_getElem hi
  have hm := Array.getElem?_eq_getElem hj
  rw [span_of_getElem? hn, span_of_getElem? hm,
    Span.meets_iff (position_le_lastUse ht ho hn) (position_le_lastUse ht ho hm)]
  simp only [liveAt_iff ht ho hn, liveAt_iff ht ho hm]

/-- The analysis finds exactly the conflicts. -/
theorem conflicts_eq_true_iff (ht : t.Linked) (ho : t.Ordered) {i j : Nat} (hi : i < t.size)
    (hj : j < t.size) :
    Liveness.conflicts ⟨t.spans⟩ t i j = true ↔ i ≠ j ∧ t.Conflict i j := by
  simp only [Liveness.conflicts, Bool.and_eq_true, Bool.or_eq_true, bne_iff_ne, beq_iff_eq,
    meets_span_iff ht ho hi hj]
  refine and_congr_right fun _ => ⟨?_, ?_⟩
  · rintro (((h | h) | ⟨hs, h⟩) | ⟨k, h, h'⟩)
    · exact .parent h
    · exact .child h
    · obtain ⟨p, hp⟩ := Option.isSome_iff_exists.1 hs
      exact .siblings p hp (h ▸ hp)
    · exact .live k h h'
  · rintro (h | h | ⟨p, h, h'⟩ | ⟨k, h, h'⟩)
    · exact Or.inl (Or.inl (Or.inl h))
    · exact Or.inl (Or.inl (Or.inr h))
    · exact Or.inl (Or.inr ⟨by simp [h], h.trans h'.symm⟩)
    · exact Or.inr ⟨k, h, h'⟩

end Tree

end Timbre.Memory
