import Mathlib.Data.List.Nodup
import Timbre.Pipeline.Schedule
import Timbre.Proofs.Memory.Order
import Timbre.Proofs.Pipeline.Assembly

/-! # The breadth-first walk

The walk takes every stage off its queue exactly once, so it never runs out of steps before the
queue is empty. A node of the tree that it draws stands for the stage that was taken off at that
point, the root for the source, and the parent of a node stands for the parent of its stage. The
numbers of the parents never decrease from node to node: this is what makes brothers stand next to
each other.
-/
namespace Timbre

namespace Builder

variable {b : Builder} {tree tree' : Memory.Tree} {order : List (Nat × Nat)}
  {queue : List Pending} {x : Pending} {e : Entry} {node : Nat}

def blockOf (i : Nat) (e : Entry) : Memory.Block :=
  { size := blockSize e.transform, item := i + 1, retained := !e.features.isEmpty,
    label := some e.link.name }

/-- What the nodes stand for: the root for the source, the others for the stages in order. -/
def places (order : List (Nat × Nat)) : List StageId := .source :: order.map fun x => .stage x.1

theorem places_append_singleton (x : Nat × Nat) :
    places (order ++ [x]) = places order ++ [.stage x.1] := by
  simp [places]

theorem getElem?_places_append {q : Nat} {id : StageId} (h : (places order)[q]? = some id)
    (x : Nat × Nat) : (places (order ++ [x]))[q]? = some id := by
  rw [places_append_singleton, List.getElem?_append_left (List.getElem?_eq_some_iff.1 h).1, h]

theorem length_places : (places order).length = order.length + 1 := by
  simp [places]

/-- Drawing a stage changes the tree in one place only, its end. -/
structure Draws (tree : Memory.Tree) (x : Pending) (e : Entry) (tree' : Memory.Tree) : Prop where
  reachable : tree.Reachable → tree'.Reachable
  size_eq : tree'.size = tree.size + 1
  order_eq : tree'.order = tree.order ++ [tree.size]
  lt_size : x.parentNode < tree.size
  parent?_eq : ∀ i, tree'.parent? i = if i = tree.size then some x.parentNode else tree.parent? i
  block?_eq : ∀ i,
    tree'.block? i = if i = tree.size then some (blockOf x.stage e) else tree.block? i

theorem addNode_eq_ok (h : addNode tree x e = .ok (tree', node)) :
    node = tree.size ∧ Draws tree x e tree' := by
  unfold addNode at h
  split at h
  · cases h
  · rename_i t i hadd
    obtain ⟨_, -, hi, horder, -⟩ := Memory.Tree.addChild_eq_ok_iff.1 hadd
    obtain ⟨t', hedit, hx⟩ : ∃ t', t.edit i (fun m =>
        { m with retained := !e.features.isEmpty, label := some e.link.name }) = .ok t' ∧
        (t', i) = (tree', node) := by
      revert h
      cases t.edit i _ with
      | error err => exact fun h => by cases h
      | ok t' => exact fun h => ⟨t', rfl, by cases h; rfl⟩
    cases hx
    have hsize := Memory.Tree.size_addChild hadd
    refine ⟨hi, fun ht => .edit _ (ht.addChild hadd) hedit, ?_, ?_,
      Memory.Tree.parent_lt_of_addChild hadd, fun j => ?_, fun j => ?_⟩
    · rw [Memory.Tree.size_edit hedit, hsize]
    · rw [Memory.Tree.order_edit hedit, horder]
    · rw [((Memory.Tree.sameLinks_edit hedit).2 j).1, Memory.Tree.parent?_addChild hadd]
    · rw [Memory.Tree.block?_edit hedit, Memory.Tree.block?_addChild hadd, hi]
      split <;> rfl

structure Walk (b : Builder) (queue : List Pending) (tree : Memory.Tree)
    (order : List (Nat × Nat)) : Prop where
  reachable : tree.Reachable
  size_eq : tree.size = order.length + 1
  order_eq : tree.order = List.range tree.size
  node : ∀ (k : Nat) x, order[k]? = some x → x.2 = k + 1 ∧ ∃ e q, b.stages[x.1]? = some e ∧
    tree.block? (k + 1) = some (blockOf x.1 e) ∧ tree.parent? (k + 1) = some q ∧
      (places order)[q]? = some e.parent
  pending : ∀ x ∈ queue, ∃ id, b.parentOf? x.stage = some id ∧
    (places order)[x.parentNode]? = some id
  drained : order.map (·.1) ++ queue.map (·.stage) = (places order).flatMap b.childrenOf
  nodup : (order.map (·.1)).Nodup
  sorted : ∀ i j p q, i ≤ j → tree.parent? i = some p → tree.parent? j = some q → p ≤ q
  ahead : ∀ i p, tree.parent? i = some p → ∀ x ∈ queue, p ≤ x.parentNode
  queue_sorted : queue.Pairwise fun x y => x.parentNode ≤ y.parentNode

theorem nodup_flatMap_childrenOf (hb : b.WellFormed) {ids : List StageId} (h : ids.Nodup) :
    (ids.flatMap b.childrenOf).Nodup := by
  rw [List.nodup_flatMap]
  constructor
  · intro id _
    rw [hb.children_eq]
    exact List.nodup_range.filter _
  · refine h.imp fun hne => ?_
    intro c hc hc'
    rw [hb.mem_childrenOf] at hc hc'
    rw [hc] at hc'
    exact hne (Option.some_inj.1 hc')

theorem nodup_places (h : (order.map (·.1)).Nodup) : (places order).Nodup := by
  have hmap : order.map (fun x => StageId.stage x.1) = (order.map (·.1)).map .stage := by simp
  rw [places, List.nodup_cons, hmap]
  exact ⟨by simp, h.map fun _ _ hij => StageId.stage.inj hij⟩

namespace Walk

theorem start (hb : b.WellFormed) :
    b.Walk (b.sourceChildren.map (⟨·, 0⟩)) (.ofRoot 0 0) [] := by
  have hparent (i : Nat) : (Memory.Tree.ofRoot 0 0).parent? i = none := by
    cases i <;> simp [Memory.Tree.ofRoot, Memory.Tree.parent?]
  refine ⟨.ofRoot 0 0, rfl, rfl, fun k x h => by simp at h, ?_, ?_, List.nodup_nil, ?_, ?_, ?_⟩
  · intro x hx
    obtain ⟨c, hc, rfl⟩ := List.mem_map.1 hx
    exact ⟨.source, hb.mem_childrenOf.1 hc, rfl⟩
  · simp [places, childrenOf, Function.comp_def]
  · intro i j p q _ hp
    rw [hparent] at hp
    cases hp
  · intro i p hp
    rw [hparent] at hp
    cases hp
  · rw [List.pairwise_map]
    exact List.pairwise_of_forall fun _ _ => Nat.le_refl 0

section Step

variable (hb : b.WellFormed) (h : b.Walk queue tree order)
include hb h

theorem nodup_both : (order.map (·.1) ++ queue.map (·.stage)).Nodup := by
  rw [h.drained]
  exact nodup_flatMap_childrenOf hb (nodup_places h.nodup)

theorem lt_size {i : Nat} (hi : i ∈ order.map (·.1) ++ queue.map (·.stage)) : i < b.size := by
  rw [h.drained, List.mem_flatMap] at hi
  obtain ⟨id, -, hi⟩ := hi
  obtain ⟨e, he, -⟩ := Option.map_eq_some_iff.1 (hb.mem_childrenOf.1 hi)
  exact (Array.getElem?_eq_some_iff.1 he).1

/-- As many stages as there are have been taken off once the queue is empty, and not before. -/
theorem length_le : order.length + queue.length ≤ b.size := by
  have hsub : (order.map (·.1) ++ queue.map (·.stage)).Subperm (List.range b.size) :=
    List.subperm_of_subset (h.nodup_both hb) fun i hi => List.mem_range.2 (h.lt_size hb hi)
  simpa using hsub.length_le

end Step

section Draws

variable (h : b.Walk (x :: queue) tree order) (he : b.stages[x.stage]? = some e)
  (hd : Draws tree x e tree')
include h hd

theorem le_parentNode {i p : Nat} (hp : tree'.parent? i = some p) : p ≤ x.parentNode := by
  rw [hd.parent?_eq] at hp
  split at hp
  · cases hp
    exact Nat.le_refl _
  · exact h.ahead i p hp x List.mem_cons_self

theorem sorted_step {i j p q : Nat} (hij : i ≤ j) (hp : tree'.parent? i = some p)
    (hq : tree'.parent? j = some q) : p ≤ q := by
  have hle := h.le_parentNode hd hp
  have hi := Memory.Tree.lt_size_of_parent? hp
  have hj := Memory.Tree.lt_size_of_parent? hq
  rw [hd.size_eq] at hi hj
  rw [hd.parent?_eq] at hp hq
  by_cases hj' : j = tree.size
  · rw [if_pos hj'] at hq
    cases hq
    exact hle
  · rw [if_neg (by omega)] at hp hq
    exact h.sorted i j p q hij hp hq

include he

theorem node_step {k : Nat} {y : Nat × Nat} (hy : (order ++ [(x.stage, tree.size)])[k]? = some y) :
    y.2 = k + 1 ∧ ∃ e' q, b.stages[y.1]? = some e' ∧
      tree'.block? (k + 1) = some (blockOf y.1 e') ∧ tree'.parent? (k + 1) = some q ∧
        (places (order ++ [(x.stage, tree.size)]))[q]? = some e'.parent := by
  have hsize := h.size_eq
  rw [List.getElem?_append] at hy
  split at hy
  · rename_i hk
    obtain ⟨hy2, e', q, he', hblock, hq, hplace⟩ := h.node k y hy
    have hne : k + 1 ≠ tree.size := by omega
    refine ⟨hy2, e', q, he', ?_, ?_, getElem?_places_append hplace _⟩
    · rw [hd.block?_eq, if_neg hne, hblock]
    · rw [hd.parent?_eq, if_neg hne, hq]
  · rename_i hk
    have hk0 : k - order.length = 0 := by
      have := (List.getElem?_eq_some_iff.1 hy).1
      simpa using this
    have hks : k + 1 = tree.size := by omega
    rw [hk0] at hy
    cases hy
    obtain ⟨id, hid, hplace⟩ := h.pending x List.mem_cons_self
    have hparent : e.parent = id := by
      rw [parentOf?, he] at hid
      exact Option.some_inj.1 hid
    refine ⟨hks.symm, e, x.parentNode, he, ?_, ?_, getElem?_places_append (hparent ▸ hplace) _⟩
    · rw [hd.block?_eq, if_pos hks]
    · rw [hd.parent?_eq, if_pos hks]

end Draws

theorem step (hb : b.WellFormed) (h : b.Walk (x :: queue) tree order)
    (he : b.stages[x.stage]? = some e) (hd : Draws tree x e tree') :
    b.Walk (queue ++ e.children.map (⟨·, tree.size⟩)) tree' (order ++ [(x.stage, tree.size)]) := by
  have hlast : (places (order ++ [(x.stage, tree.size)]))[tree.size]? = some (.stage x.stage) := by
    rw [places_append_singleton, h.size_eq, ← length_places, List.getElem?_concat_length]
  have hchildren : b.childrenOf (.stage x.stage) = e.children := by simp [childrenOf, he]
  refine ⟨hd.reachable h.reachable, ?_, ?_, fun _ _ => h.node_step he hd, ?_, ?_, ?_,
    fun _ _ _ _ => h.sorted_step hd, ?_, ?_⟩
  · rw [hd.size_eq, h.size_eq, List.length_append, List.length_singleton]
  · rw [hd.order_eq, h.order_eq, hd.size_eq, List.range_succ]
  · intro y hy
    rcases List.mem_append.1 hy with hy | hy
    · obtain ⟨id', hid', hplace'⟩ := h.pending y (List.mem_cons_of_mem x hy)
      exact ⟨id', hid', getElem?_places_append hplace' _⟩
    · obtain ⟨c, hc, rfl⟩ := List.mem_map.1 hy
      exact ⟨.stage x.stage, hb.mem_childrenOf.1 (hchildren ▸ hc), hlast⟩
  · have hdrained := h.drained
    rw [places_append_singleton, List.flatMap_append, ← hdrained]
    simp [hchildren, Function.comp_def]
  · have hboth := h.nodup_both hb
    rw [List.map_cons, List.append_cons] at hboth
    simpa using hboth.of_append_left
  · intro i p hp y hy
    have hle := h.le_parentNode hd hp
    rcases List.mem_append.1 hy with hy | hy
    · exact Nat.le_trans hle ((List.pairwise_cons.1 h.queue_sorted).1 y hy)
    · obtain ⟨c, -, rfl⟩ := List.mem_map.1 hy
      exact Nat.le_trans hle hd.lt_size.le
  · rw [List.pairwise_append]
    refine ⟨(List.pairwise_cons.1 h.queue_sorted).2, ?_, ?_⟩
    · rw [List.pairwise_map]
      exact List.pairwise_of_forall fun _ _ => Nat.le_refl _
    · intro y hy z hz
      obtain ⟨c, -, rfl⟩ := List.mem_map.1 hz
      obtain ⟨id', -, hplace'⟩ := h.pending y (List.mem_cons_of_mem x hy)
      have hlt := (List.getElem?_eq_some_iff.1 hplace').1
      rw [length_places, ← h.size_eq] at hlt
      exact hlt.le

theorem run (hb : b.WellFormed) {steps : Nat} {order' : List (Nat × Nat)}
    (h : b.Walk queue tree order) (hsteps : steps + order.length = b.size)
    (hw : b.walk steps queue tree order = .ok (tree', order')) : b.Walk [] tree' order' := by
  induction steps generalizing queue tree order with
  | zero =>
    have hle := h.length_le hb
    have hempty : queue = [] := List.eq_nil_of_length_eq_zero (by omega)
    cases hw
    exact hempty ▸ h
  | succ steps ih =>
    cases queue with
    | nil =>
      cases hw
      exact h
    | cons x queue =>
      rw [walk] at hw
      split at hw
      · cases hw
      · rename_i e he
        split at hw
        · cases hw
        · rename_i t node hnode
          obtain ⟨rfl, hd⟩ := addNode_eq_ok hnode
          refine ih (h.step hb (entry_eq_ok_iff.1 he) hd) ?_ hw
          rw [List.length_append, List.length_singleton]
          omega

/-- A stage below a stage that was taken off was taken off as well, so all were. -/
theorem perm (hb : b.WellFormed) (h : b.Walk [] tree order) :
    (order.map (·.1)).Perm (List.range b.size) := by
  have hdrained := h.drained
  rw [List.map_nil, List.append_nil] at hdrained
  have hall (i : Nat) (hi : i < b.size) : i ∈ order.map (·.1) := by
    induction i using Nat.strongRecOn with
    | ind i ih =>
      have hi' : i < b.stages.size := hi
      have he := Array.getElem?_eq_getElem hi'
      have hle := hb.parent_le i _ he
      have hplace : b.stages[i].parent ∈ places order := by
        cases hp : b.stages[i].parent with
        | source => exact List.mem_cons_self
        | stage j =>
          rw [hp] at hle
          obtain ⟨y, hy, rfl⟩ := List.mem_map.1 (ih j hle (Nat.lt_trans hle hi))
          exact List.mem_cons_of_mem _ (List.mem_map_of_mem (f := fun x => StageId.stage x.1) hy)
      rw [hdrained]
      refine List.mem_flatMap.2 ⟨_, hplace, hb.mem_childrenOf.2 ?_⟩
      rw [parentOf?, he]
      rfl
  refine (List.perm_ext_iff_of_nodup h.nodup List.nodup_range).2 fun i => ?_
  rw [List.mem_range]
  refine ⟨fun hi => h.lt_size hb (List.mem_append_left _ hi), hall i⟩

end Walk

theorem walk_of_breadthFirst (hb : b.WellFormed) (h : b.breadthFirst = .ok (tree, order)) :
    b.Walk [] tree order :=
  (Walk.start hb).run hb (Nat.add_zero _) h

end Builder

end Timbre
