import Timbre.Proofs.Memory.Lines

/-! # What a drawing shows

A drawing is its lines between a fixed beginning and a fixed end, so its lines can be told from its
text. From them the blocks of the nodes, the children of each node and the pairs of the order are
read off. An order of one node has no pairs, and neither has an empty one. Main statement:
`Tree.dot_faithful`.
-/
namespace Timbre.Memory

section Lists

variable {α β : Type}

/-- The steps of an order, and where it begins, make up the order. -/
theorem eq_of_zip_eq {a : α} {xs ys : List α} (h : (a :: xs).zip xs = (a :: ys).zip ys) :
    xs = ys := by
  induction xs generalizing a ys with
  | nil =>
    cases ys with
    | nil => rfl
    | cons y ys => cases h
  | cons x xs ih =>
    cases ys with
    | nil => cases h
    | cons y ys =>
      rw [List.zip_cons_cons, List.zip_cons_cons] at h
      obtain ⟨hpair, hrest⟩ := List.cons_eq_cons.1 h
      cases hpair
      rw [ih hrest]

theorem eq_of_zip_tail_eq {xs ys : List α} (hxs : 2 ≤ xs.length)
    (h : xs.zip xs.tail = ys.zip ys.tail) : xs = ys := by
  cases xs with
  | nil => cases hxs
  | cons x xs =>
    cases xs with
    | nil => simp at hxs
    | cons x' xs =>
      cases ys with
      | nil => cases h
      | cons y ys =>
        cases ys with
        | nil => cases h
        | cons y' ys =>
          obtain rfl : x = y := congrArg Prod.fst (List.cons_eq_cons.1 h).1
          exact congrArg _ (eq_of_zip_eq h)

theorem flatMap_zipIdx_eq (f : α → List β) (xs : List α) (start i : Nat) :
    ((xs.zipIdx start).flatMap fun p => if p.2 = start + i then f p.1 else []) =
      (xs[i]?.map f).getD [] := by
  induction xs generalizing start i with
  | nil => rfl
  | cons x xs ih =>
    rw [List.zipIdx_cons, List.flatMap_cons]
    cases i with
    | zero =>
      have hrest : ((xs.zipIdx (start + 1)).flatMap
          fun p => if p.2 = start + 0 then f p.1 else []) = [] := by
        rw [List.flatMap_eq_nil_iff]
        intro p hp
        have hle := List.le_snd_of_mem_zipIdx hp
        exact if_neg (by omega)
      rw [hrest]
      simp
    | succ i =>
      rw [if_neg (by omega), List.nil_append, List.getElem?_cons_succ, ← ih (start + 1) i]
      simp only [Nat.add_assoc, Nat.add_comm 1]

end Lists

namespace Dot

/-- What every drawing begins with. -/
def header : String := "digraph buffers \x7b\n  node [shape=box, fontname=monospace];\n"

namespace Line

def block? : Line → Option Block
  | .node _ b => some b
  | .child _ _ => none
  | .next _ _ => none

def childOf? (i : Nat) : Line → Option Nat
  | .node _ _ => none
  | .child j c => if j = i then some c else none
  | .next _ _ => none

def step? : Line → Option (Nat × Nat)
  | .node _ _ => none
  | .child _ _ => none
  | .next i j => some (i, j)

end Line

end Dot

namespace Tree

open Dot

variable {t u : Tree}

/-- The lines of a drawing: all nodes, then the edges to children, then the order. -/
def lines (t : Tree) : List Line :=
  t.nodes.toList.zipIdx.map (fun p => .node p.2 p.1.toBlock) ++
    t.nodes.toList.zipIdx.flatMap (fun p => p.1.children.map (.child p.2)) ++
    (t.order.zip t.order.tail).map (fun p => .next p.1 p.2)

theorem toList_dot (t : Tree) :
    t.dot.toList = header.toList ++ (t.lines.flatMap Line.text ++ ['\x7d', '\n']) := by
  have hnodes : (String.join (t.nodes.toList.mapIdx nodeLine)).toList =
      (t.nodes.toList.zipIdx.map fun p => Line.node p.2 p.1.toBlock).flatMap Line.text := by
    rw [String.toList_join, List.mapIdx_eq_zipIdx_map, List.flatMap_map, List.flatMap_map]
    simp only [Line.text_node]
  have hchildren : (String.join (t.nodes.toList.mapIdx childLines)).toList =
      (t.nodes.toList.zipIdx.flatMap fun p => p.1.children.map (Line.child p.2)).flatMap
        Line.text := by
    rw [String.toList_join, List.mapIdx_eq_zipIdx_map, List.flatMap_map, List.flatMap_assoc]
    simp only [childLines, String.toList_join, List.flatMap_map, Line.text_child]
  have horder : (String.join ((t.order.zip t.order.tail).map orderLine)).toList =
      ((t.order.zip t.order.tail).map fun p => Line.next p.1 p.2).flatMap Line.text := by
    rw [String.toList_join, List.flatMap_map, List.flatMap_map]
    simp only [Line.text_next]
  have hend : "\x7d\n".toList = ['\x7d', '\n'] := rfl
  unfold dot lines
  rw [String.toList_append, String.toList_append, String.toList_append, String.toList_append,
    hnodes, hchildren, horder, hend, List.flatMap_append, List.flatMap_append, header]
  simp only [List.append_assoc]

theorem filterMap_block?_lines (t : Tree) :
    t.lines.filterMap Line.block? = t.nodes.toList.map (·.toBlock) := by
  have hblocks : (t.nodes.toList.zipIdx.map fun p => p.1.toBlock) =
      t.nodes.toList.map (·.toBlock) := by
    rw [← List.zipIdx_map_fst 0 t.nodes.toList, List.map_map, List.zipIdx_map_fst]
    rfl
  simp [lines, List.filterMap_flatMap, Line.block?, Function.comp_def, hblocks]

theorem filterMap_caption?_lines (t : Tree) :
    t.lines.filterMap Line.caption? = t.nodes.toList.mapIdx fun i n => (caption i n).toList := by
  simp [lines, List.filterMap_flatMap, Line.caption?, Function.comp_def,
    List.mapIdx_eq_zipIdx_map, toList_caption]

theorem filterMap_childOf?_lines (t : Tree) (i : Nat) :
    t.lines.filterMap (Line.childOf? i) = (t.nodes.toList[i]?.map (·.children)).getD [] := by
  have hchildren (j : Nat) (cs : List Nat) :
      (cs.map (Line.child j)).filterMap (Line.childOf? i) = if j = i then cs else [] := by
    rw [List.filterMap_map]
    split <;> simp [Line.childOf?, Function.comp_def, *]
  rw [← flatMap_zipIdx_eq (·.children) t.nodes.toList 0 i, lines, List.filterMap_append,
    List.filterMap_append, List.filterMap_flatMap]
  simp [hchildren, Line.childOf?, Function.comp_def]

theorem filterMap_step?_lines (t : Tree) :
    t.lines.filterMap Line.step? = t.order.zip t.order.tail := by
  simp [lines, List.filterMap_flatMap, Line.step?, Function.comp_def]

theorem lines_eq_of_dot_eq (h : t.dot = u.dot) : t.lines = u.lines := by
  have htext := congrArg String.toList h
  rw [toList_dot, toList_dot] at htext
  exact Line.eq_of_flatMap_text (List.append_cancel_left htext)

theorem blocks_eq_of_lines_eq (h : t.lines = u.lines) :
    t.nodes.toList.map (·.toBlock) = u.nodes.toList.map (·.toBlock) := by
  rw [← filterMap_block?_lines, h, filterMap_block?_lines]

theorem children_eq_of_lines_eq (h : t.lines = u.lines) {i : Nat} (ht : i < t.nodes.size)
    (hu : i < u.nodes.size) : t.nodes[i].children = u.nodes[i].children := by
  have hchildren := filterMap_childOf?_lines u i
  rw [← h, filterMap_childOf?_lines t i] at hchildren
  simpa [ht, hu] using hchildren

theorem order_eq_of_lines_eq (h : t.lines = u.lines)
    (horder : 2 ≤ t.order.length ∨ 2 ≤ u.order.length) : t.order = u.order := by
  have hsteps : t.order.zip t.order.tail = u.order.zip u.order.tail := by
    rw [← filterMap_step?_lines, h, filterMap_step?_lines]
  obtain ht | hu := horder
  · exact eq_of_zip_tail_eq ht hsteps
  · exact (eq_of_zip_tail_eq hu hsteps.symm).symm

theorem strings_dot (t : Tree) : strings .outside t.dot.toList =
    t.nodes.toList.mapIdx fun i n => (caption i n).toList := by
  have hheader : '"' ∉ header.toList := by decide
  rw [toList_dot, strings_outside_append hheader, Line.strings_flatMap_text,
    filterMap_caption?_lines]
  exact List.append_nil _

/-- A drawing shows everything but the parents, which the children tell, and an order of less than
two nodes: trees that are drawn alike have the same number of nodes, with the same blocks and the
same children, and if either order has two entries the orders are the same. The strings in a drawing
are the captions of the nodes, whatever the labels are: each ends at the quote that is written after
its caption. -/
theorem dot_faithful :
    (∀ t u : Tree, t.dot = u.dot →
      t.size = u.size ∧
      (∀ i (ht : i < t.nodes.size) (hu : i < u.nodes.size),
        t.nodes[i].toBlock = u.nodes[i].toBlock ∧ t.nodes[i].children = u.nodes[i].children) ∧
      (2 ≤ t.order.length ∨ 2 ≤ u.order.length → t.order = u.order)) ∧
    ∀ t : Tree, strings .outside t.dot.toList =
      t.nodes.toList.mapIdx fun i n => (caption i n).toList := by
  refine ⟨fun t u h => ?_, strings_dot⟩
  have hlines := lines_eq_of_dot_eq h
  have hblocks := blocks_eq_of_lines_eq hlines
  refine ⟨?_, fun i ht hu => ⟨?_, children_eq_of_lines_eq hlines ht hu⟩,
    order_eq_of_lines_eq hlines⟩
  · simpa [size] using congrArg List.length hblocks
  · simpa [ht, hu] using congrArg (·[i]?) hblocks

/-- One node whose label has quotes, backslashes and a line of a drawing in it. -/
def quoted : Tree :=
  ⟨#[⟨{ size := 4, item := 7, label := some "a\"];\n  n0 -> n0;\n\\" }, none, []⟩], [0]⟩

/-- Nothing of a label is taken for a line, and an order of one node leaves no trace. -/
theorem dot_faithful_quoted : quoted.dot = (quoted.setOrder []).dot ∧
    quoted.size = (quoted.setOrder []).size ∧
    strings .outside quoted.dot.toList = [(caption 0 quoted.nodes[0]).toList] := by
  have hdot : quoted.dot = (quoted.setOrder []).dot := rfl
  exact ⟨hdot, (dot_faithful.1 _ _ hdot).1, dot_faithful.2 quoted⟩

end Tree

end Timbre.Memory
