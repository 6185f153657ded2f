import Mathlib.Data.List.Basic
import Timbre.Memory.Layout

/-! # Parents and children

The links of every tree that can be built agree: the children of a node are the nodes whose parent
it is, in the order in which they were added, and a parent is older than its children. Editing the
memory of nodes, placing them and replacing the order leave the links alone; nothing is assumed of
the order. The memory of a node on its own is its block.
-/
namespace Timbre.Memory.Tree

/-- The trees that come from a root by adding children, by editing the memory of nodes in any way,
and by replacing the order with any list. -/
inductive Reachable : Tree → Prop
  | ofRoot (size item : Nat) : Reachable (.ofRoot size item)
  | addChild {t t' : Tree} {parent size item i : Nat} :
    Reachable t → t.addChild parent size item = .ok (t', i) → Reachable t'
  | edit {t t' : Tree} {i : Nat} (f : Block → Block) :
    Reachable t → t.edit i f = .ok t' → Reachable t'
  | setOrder {t : Tree} (order : List Nat) : Reachable t → Reachable (t.setOrder order)

def children (t : Tree) (i : Nat) : List Nat := (t.nodes[i]?.map (·.children)).getD []

theorem children_of_getElem? {t : Tree} {i : Nat} {n : Node} (h : t.nodes[i]? = some n) :
    t.children i = n.children := by
  simp [children, h]

theorem parent?_of_getElem? {t : Tree} {i : Nat} {n : Node} (h : t.nodes[i]? = some n) :
    t.parent? i = n.parent := by
  simp [parent?, h]

theorem lt_size_of_parent? {t : Tree} {i p : Nat} (h : t.parent? i = some p) : i < t.size := by
  unfold parent? at h
  obtain ⟨n, hn, -⟩ := Option.bind_eq_some_iff.1 h
  exact (Array.getElem?_eq_some_iff.1 hn).1

/-- The links agree, and every node but the root hangs below an older one. -/
structure Linked (t : Tree) : Prop where
  size_pos : 0 < t.size
  root : t.parent? 0 = none
  parent_lt : ∀ i, 0 < i → i < t.size → ∃ p < i, t.parent? i = some p
  children_eq : ∀ i, t.children i = (List.range t.size).filter fun c => t.parent? c = some i

/-- Two trees with the same nodes at the same places. -/
def SameLinks (t t' : Tree) : Prop :=
  t'.size = t.size ∧ ∀ i, t'.parent? i = t.parent? i ∧ t'.children i = t.children i

theorem Linked.of_sameLinks {t t' : Tree} (ht : t.Linked) (h : t.SameLinks t') : t'.Linked := by
  obtain ⟨hsize, hlinks⟩ := h
  have hp : t'.parent? = t.parent? := funext fun i => (hlinks i).1
  refine ⟨hsize ▸ ht.size_pos, hp ▸ ht.root, ?_, ?_⟩
  · rw [hsize, hp]
    exact ht.parent_lt
  · intro i
    rw [(hlinks i).2, hsize, hp]
    exact ht.children_eq i

theorem sameLinks_of_getElem? {t t' : Tree} (g : Nat → Node → Node)
    (hg : ∀ i n, (g i n).parent = n.parent ∧ (g i n).children = n.children)
    (h : ∀ i, t'.nodes[i]? = (t.nodes[i]?).map (g i)) (hsize : t'.size = t.size) :
    t.SameLinks t' := by
  refine ⟨hsize, fun i => ?_⟩
  cases hn : t.nodes[i]? with
  | none => simp [parent?, children, h, hn]
  | some n => simp [parent?, children, h, hn, hg]

section Edit

variable {t t' : Tree} {i : Nat} {f : Block → Block} (h : t.edit i f = .ok t')
include h

theorem getElem?_nodes_edit (j : Nat) : t'.nodes[j]? =
    (t.nodes[j]?).map fun n => if j = i then { n with toBlock := f n.toBlock } else n := by
  unfold edit at h
  split at h
  · rename_i n hn
    cases h
    obtain ⟨hlt, rfl⟩ := Array.getElem?_eq_some_iff.1 hn
    by_cases hj : j = i
    · subst hj
      simp [hlt]
    · simp [hj, Ne.symm hj]
  · cases h

theorem size_edit : t'.size = t.size := by
  unfold edit at h
  split at h
  · cases h
    simp [size]
  · cases h

theorem order_edit : t'.order = t.order := by
  unfold edit at h
  split at h
  · cases h
    rfl
  · cases h

theorem sameLinks_edit : t.SameLinks t' := by
  refine sameLinks_of_getElem? (fun j m => if j = i then { m with toBlock := f m.toBlock } else m)
    (fun j m => ?_) (getElem?_nodes_edit h) (size_edit h)
  dsimp only
  split <;> exact ⟨rfl, rfl⟩

end Edit

theorem sameLinks_setOrder (t : Tree) (order : List Nat) : t.SameLinks (t.setOrder order) :=
  ⟨rfl, fun _ => ⟨rfl, rfl⟩⟩

theorem sameLinks_assign (t : Tree) (addresses : List Nat) : t.SameLinks (t.assign addresses) := by
  refine sameLinks_of_getElem? (fun i n => { n with address := addresses[i]? })
    (fun _ _ => ⟨rfl, rfl⟩) (fun i => ?_) (by simp [assign, size])
  simp [assign]

section AddChild

variable {t t' : Tree} {parent size item i : Nat}

/-- All that adding a child does: the new node comes last, in the nodes, in the order and among the
children of its parent. -/
theorem addChild_eq_ok_iff : t.addChild parent size item = .ok (t', i) ↔
    ∃ p, t.nodes[parent]? = some p ∧ i = t.size ∧ t'.order = t.order ++ [t.size] ∧
      t'.nodes = (t.nodes.setIfInBounds parent { p with children := p.children ++ [t.size] }).push
        { size := size, item := item, parent := some parent, children := [] } := by
  unfold addChild
  cases hp : t.nodes[parent]? with
  | none => simp
  | some p =>
    cases t'
    simp only [Except.ok.injEq, Prod.mk.injEq, Tree.mk.injEq, Option.some.injEq, exists_eq_left']
    constructor
    · rintro ⟨⟨rfl, rfl⟩, rfl⟩
      exact ⟨rfl, rfl, rfl⟩
    · rintro ⟨rfl, rfl, rfl⟩
      exact ⟨⟨rfl, rfl⟩, rfl⟩

variable (h : t.addChild parent size item = .ok (t', i))
include h

theorem size_addChild : t'.size = t.size + 1 := by
  obtain ⟨p, -, -, -, hnodes⟩ := addChild_eq_ok_iff.1 h
  simp [Tree.size, hnodes]

theorem parent_lt_of_addChild : parent < t.size := by
  obtain ⟨p, hp, -⟩ := addChild_eq_ok_iff.1 h
  exact (Array.getElem?_eq_some_iff.1 hp).1

theorem getElem?_nodes_addChild (j : Nat) : t'.nodes[j]? =
    if j = t.size then
      some { size := size, item := item, parent := some parent, children := [] }
    else (t.nodes[j]?).map fun n =>
      if j = parent then { n with children := n.children ++ [t.size] } else n := by
  obtain ⟨p, hp, -, -, hnodes⟩ := addChild_eq_ok_iff.1 h
  obtain ⟨hlt, rfl⟩ := Array.getElem?_eq_some_iff.1 hp
  rw [hnodes, Array.getElem?_push]
  by_cases hj : j = t.size
  · simp [hj, Tree.size]
  · have hj' : j ≠ t.nodes.size := hj
    by_cases hjp : j = parent
    · subst hjp
      simp [hj, hj', hlt]
    · simp [hj, hj', hjp, Ne.symm hjp]

theorem parent?_addChild (j : Nat) :
    t'.parent? j = if j = t.size then some parent else t.parent? j := by
  rw [parent?, getElem?_nodes_addChild h]
  split
  · rfl
  · rw [parent?]
    cases t.nodes[j]? with
    | none => rfl
    | some n =>
      simp only [Option.map_some]
      split <;> rfl

theorem children_addChild (j : Nat) :
    t'.children j = if j = parent then t.children j ++ [t.size] else t.children j := by
  have hlt := parent_lt_of_addChild h
  rw [children, getElem?_nodes_addChild h]
  by_cases hj : j = t.size
  · have hnone : t.nodes[j]? = none := Array.getElem?_eq_none (hj ▸ Nat.le_refl _)
    rw [if_pos hj, if_neg (by omega), children, hnone]
    rfl
  · rw [if_neg hj, children]
    cases hn : t.nodes[j]? with
    | none =>
      have := Array.getElem?_eq_none_iff.1 hn
      have hlt' : parent < t.nodes.size := hlt
      rw [if_neg (by omega)]
      rfl
    | some n =>
      simp only [Option.map_some, Option.getD_some]
      split <;> rfl

theorem Linked.addChild (ht : t.Linked) : t'.Linked := by
  have hsize := size_addChild h
  have hparent := parent?_addChild h
  have hlt := parent_lt_of_addChild h
  have hpos := ht.size_pos
  refine ⟨by omega, ?_, ?_, ?_⟩
  · rw [hparent, if_neg (by omega)]
    exact ht.root
  · intro j hj hjs
    rw [hparent]
    split
    · exact ⟨parent, by omega, rfl⟩
    · exact ht.parent_lt j hj (by omega)
  · intro j
    have hold : ((List.range t.size).filter fun c => t'.parent? c = some j) = t.children j := by
      rw [ht.children_eq]
      apply List.filter_congr
      intro c hc
      rw [hparent, if_neg (Nat.ne_of_lt (List.mem_range.1 hc))]
    rw [children_addChild h, hsize, List.range_succ, List.filter_append, hold]
    by_cases hj : j = parent
    · simp [hj, hparent]
    · simp [hj, hparent, Ne.symm hj]

end AddChild

theorem Linked.ofRoot (size item : Nat) : (Tree.ofRoot size item).Linked := by
  refine ⟨by simp [Tree.ofRoot, Tree.size], by simp [Tree.ofRoot, parent?], ?_, ?_⟩
  · intro i hi hlt
    simp [Tree.ofRoot, Tree.size] at hlt
    omega
  · intro i
    cases i <;> simp [Tree.ofRoot, Tree.size, children, parent?, List.range_succ]

theorem Reachable.linked {t : Tree} (h : t.Reachable) : t.Linked := by
  induction h with
  | ofRoot size item => exact .ofRoot size item
  | addChild _ he ih => exact ih.addChild he
  | edit f _ he ih => exact ih.of_sameLinks (sameLinks_edit he)
  | setOrder order _ ih => exact ih.of_sameLinks (sameLinks_setOrder _ order)

namespace Linked

variable {t : Tree} (ht : t.Linked)
include ht

theorem parent?_lt {i p : Nat} (h : t.parent? i = some p) : p < i := by
  have hpos : 0 < i := by
    refine Nat.pos_of_ne_zero fun h0 => ?_
    rw [h0, ht.root] at h
    cases h
  obtain ⟨q, hq, he⟩ := ht.parent_lt i hpos (lt_size_of_parent? h)
  rw [h] at he
  cases he
  exact hq

theorem mem_children {i c : Nat} : c ∈ t.children i ↔ t.parent? c = some i := by
  rw [ht.children_eq, List.mem_filter, List.mem_range, decide_eq_true_iff]
  exact ⟨fun h => h.2, fun h => ⟨lt_size_of_parent? h, h⟩⟩

end Linked

/-- The memory of a node, without its links. -/
def block? (t : Tree) (i : Nat) : Option Block := t.nodes[i]?.map (·.toBlock)

theorem block?_edit {t t' : Tree} {i : Nat} {f : Block → Block} (h : t.edit i f = .ok t')
    (j : Nat) : t'.block? j = if j = i then (t.block? j).map f else t.block? j := by
  rw [block?, getElem?_nodes_edit h, block?, Option.map_map]
  cases t.nodes[j]? with
  | none => simp
  | some n =>
    simp only [Option.map_some, Function.comp_apply]
    split <;> rfl

theorem block?_addChild {t t' : Tree} {parent size item i : Nat}
    (h : t.addChild parent size item = .ok (t', i)) (j : Nat) :
    t'.block? j = if j = t.size then some { size, item } else t.block? j := by
  rw [block?, getElem?_nodes_addChild h]
  split
  · rfl
  · rw [block?]
    cases t.nodes[j]? with
    | none => rfl
    | some n =>
      simp only [Option.map_some]
      split <;> rfl

theorem block?_assign (t : Tree) (addresses : List Nat) (i : Nat) : (t.assign addresses).block? i =
    (t.block? i).map fun m => { m with address := addresses[i]? } := by
  simp only [block?, assign, Array.getElem?_mapIdx, Option.map_map]
  rfl

end Timbre.Memory.Tree
