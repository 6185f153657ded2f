import Mathlib.Data.List.Perm.Subperm
import Mathlib.Data.List.Range
import Timbre.Proofs.Memory.Links

/-! # Sensible orders

An order of execution makes sense if it is a permutation of the nodes that starts at the root and
puts every node after its parent. The check looks at the length, at each entry against the number of
nodes and against the entries before it, and at the positions of parents; that this is enough is a
count: as many different entries as there are nodes, each of them a node, leave none out.
-/
namespace Timbre.Memory.Tree

variable {t : Tree}

structure Ordered (t : Tree) : Prop where
  perm : t.order.Perm (List.range t.size)
  starts : t.order[0]? = some 0
  parents_first : ∀ i p, t.parent? i = some p →
    ∀ a b : Nat, t.order[a]? = some p → t.order[b]? = some i → a < b

theorem Linked.ordered (ht : t.Linked) (horder : t.order = List.range t.size) : t.Ordered := by
  have hposition (a i : Nat) (ha : t.order[a]? = some i) : i = a := by
    rw [horder] at ha
    obtain ⟨hlt, hi⟩ := List.getElem?_eq_some_iff.1 ha
    rw [← hi, List.getElem_range]
  refine ⟨?_, ?_, ?_⟩
  · rw [horder]
  · rw [horder, List.getElem?_range ht.size_pos]
  · intro i p hp a b ha hb
    obtain rfl := hposition a p ha
    obtain rfl := hposition b i hb
    exact ht.parent?_lt hp

theorem checkEntries_eq_ok_iff (count : Nat) (seen order : List Nat) :
    checkEntries count seen order = .ok () ↔
      (∀ i ∈ order, i < count ∧ i ∉ seen) ∧ order.Nodup := by
  induction order generalizing seen with
  | nil => simp [checkEntries]
  | cons i rest ih =>
    simp only [checkEntries]
    split
    · rename_i hi
      simp [Nat.not_lt.2 hi]
    · split
      · rename_i hs
        simp [hs]
      · rename_i hi hs
        rw [ih, List.nodup_cons, List.forall_mem_cons]
        constructor
        · rintro ⟨hall, hn⟩
          refine ⟨⟨⟨by omega, hs⟩, fun j hj => ⟨(hall j hj).1, fun hjs => ?_⟩⟩, fun hir => ?_, hn⟩
          · exact (hall j hj).2 (List.mem_cons_of_mem i hjs)
          · exact (hall i hir).2 List.mem_cons_self
        · rintro ⟨⟨-, hall⟩, hir, hn⟩
          refine ⟨fun j hj => ⟨(hall j hj).1, fun hjs => ?_⟩, hn⟩
          rcases List.mem_cons.1 hjs with rfl | hjs
          · exact hir hj
          · exact (hall j hj).2 hjs

/-- The pigeonhole: `n` different numbers below `n` are all of them. -/
theorem perm_range_iff (n : Nat) (order : List Nat) :
    order.Perm (List.range n) ↔ order.length = n ∧ (∀ i ∈ order, i < n) ∧ order.Nodup := by
  constructor
  · intro h
    exact ⟨by simpa using h.length_eq, fun i hi => List.mem_range.1 (h.mem_iff.1 hi),
      h.nodup_iff.2 List.nodup_range⟩
  · rintro ⟨hlen, hlt, hn⟩
    have hsub : order.Subperm (List.range n) :=
      List.subperm_of_subset hn fun i hi => List.mem_range.2 (hlt i hi)
    exact hsub.perm_of_length_le (by simp [hlen])

theorem getElem?_order_iff (h : t.order.Perm (List.range t.size)) {a i : Nat} :
    t.order[a]? = some i ↔ i < t.size ∧ t.position i = a := by
  have hn := ((perm_range_iff _ _).1 h).2.2
  constructor
  · intro ha
    obtain ⟨hlt, rfl⟩ := List.getElem?_eq_some_iff.1 ha
    exact ⟨List.mem_range.1 (h.mem_iff.1 (List.getElem_mem hlt)), hn.idxOf_getElem a hlt⟩
  · rintro ⟨hi, rfl⟩
    have hmem : i ∈ t.order := h.mem_iff.2 (List.mem_range.2 hi)
    exact List.getElem?_idxOf hmem

theorem position_lt (h : t.order.Perm (List.range t.size)) {i : Nat} (hi : i < t.size) :
    t.position i < t.size := by
  have hmem : i ∈ t.order := h.mem_iff.2 (List.mem_range.2 hi)
  have hlen : t.order.length = t.size := ((perm_range_iff _ _).1 h).1
  exact hlen ▸ List.idxOf_lt_length_of_mem hmem

theorem parentsFirst_iff : t.ParentsFirst ↔
    ∀ i p, t.parent? i = some p → t.position p < t.position i := by
  constructor
  · intro h i p hp
    have hi := lt_size_of_parent? hp
    rw [parent?_of_getElem? (Array.getElem?_eq_getElem hi)] at hp
    exact h ⟨i, hi⟩ p hp
  · intro h i p hp
    exact h i p ((parent?_of_getElem? (Array.getElem?_eq_getElem i.isLt)).trans hp)

/-- The spans as they are computed, whether the order makes sense or not. -/
def spans (t : Tree) : List Span := t.nodes.toList.mapIdx fun i n => ⟨t.position i, t.lastUse n⟩

theorem length_spans (t : Tree) : t.spans.length = t.size := by
  simp [spans, size]

theorem span_of_getElem? {i : Nat} {n : Node} (h : t.nodes[i]? = some n) :
    Liveness.span ⟨t.spans⟩ i = ⟨t.position i, t.lastUse n⟩ := by
  simp [Liveness.span, spans, h]

theorem liveness_eq_ok_iff (ht : t.Linked) {l : Liveness} :
    t.liveness = .ok l ↔ t.Ordered ∧ l = ⟨t.spans⟩ := by
  have hcheck := checkEntries_eq_ok_iff t.size [] t.order
  unfold liveness
  split
  · rename_i hs
    rw [List.head?_eq_getElem?] at hs
    exact ⟨fun h => (by cases h), fun h => absurd h.1.starts hs⟩
  · rename_i hs
    rw [List.head?_eq_getElem?, ne_eq, not_not] at hs
    split
    · rename_i hlen
      exact ⟨fun h => (by cases h), fun h => absurd ((perm_range_iff _ _).1 h.1.perm).1 hlen⟩
    · rename_i hlen
      rw [ne_eq, not_not] at hlen
      cases hc : checkEntries t.size [] t.order with
      | error e =>
        refine ⟨fun h => (by cases h), fun h => ?_⟩
        obtain ⟨-, hlt, hn⟩ := (perm_range_iff _ _).1 h.1.perm
        have := hcheck.2 ⟨fun i hi => ⟨hlt i hi, List.not_mem_nil⟩, hn⟩
        rw [hc] at this
        cases this
      | ok u =>
        obtain ⟨hlt, hn⟩ := hcheck.1 hc
        have hperm := (perm_range_iff t.size t.order).2 ⟨hlen, fun i hi => (hlt i hi).1, hn⟩
        have hfirst : t.ParentsFirst ↔ t.Ordered := by
          rw [parentsFirst_iff]
          constructor
          · intro h
            refine ⟨hperm, hs, fun i p hp a b ha hb => ?_⟩
            obtain ⟨-, rfl⟩ := (getElem?_order_iff hperm).1 ha
            obtain ⟨-, rfl⟩ := (getElem?_order_iff hperm).1 hb
            exact h i p hp
          · intro h i p hp
            have hi := lt_size_of_parent? hp
            have hpi := ht.parent?_lt hp
            exact h.parents_first i p hp _ _ ((getElem?_order_iff hperm).2 ⟨by omega, rfl⟩)
              ((getElem?_order_iff hperm).2 ⟨hi, rfl⟩)
        rw [← hfirst]
        dsimp only
        split
        · rename_i hp
          simp only [Except.ok.injEq, hp, true_and, spans]
          exact eq_comm
        · rename_i hp
          simp [hp]

theorem isOk_liveness_iff (ht : t.Linked) : (∃ l, t.liveness = .ok l) ↔ t.Ordered := by
  simp [liveness_eq_ok_iff ht]

end Timbre.Memory.Tree
