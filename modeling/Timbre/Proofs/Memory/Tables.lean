import Timbre.Proofs.Memory.Order
import Timbre.Proofs.Memory.Ranges

/-! # Checking with tables

The check of a layout once more, as it goes over arrays: positions and spans are kept in tables by
node, and every look-up is a checked one. Main statement: on a tree whose links agree no look-up is
out of range, and the answer is the same (`validateByTables_eq`). The table of positions is read
only once every entry is filled, and a list of children or a parent never leads out of the tree.
-/
namespace Timbre.Memory.Tree

/-- The positions by node, filled from an order that goes on at position `k`. -/
def fillPositions : (table : Array (Option Nat)) → (k : Nat) → List Nat →
    Except TreeProblem (Array (Option Nat))
  | table, _, [] => .ok table
  | table, k, i :: rest =>
    match table[i]? with
    | none => .error .missingNode
    | some (some _) => .error .repeatedNode
    | some none => fillPositions (table.setIfInBounds i (some k)) (k + 1) rest

/-- The position of a node in the table; an entry that nothing was put into is no position. -/
def positionIn (table : Array (Option Nat)) (i : Nat) : Except Fault Nat := do
  match ← Checked.get table i with
  | some k => .ok k
  | none => .error .outOfRange

def lastUseIn (table : Array (Option Nat)) (last : Nat) (n : Node) : Except Fault Nat :=
  if n.retained || n.children.isEmpty then .ok last
  else do return ((← n.children.mapM (positionIn table)).max?).getD last

/-- Whether the parent of a node, if it has one, stands before position `first`. -/
def parentBefore (table : Array (Option Nat)) (first : Nat) (n : Node) : Except Fault Bool :=
  match n.parent with
  | none => .ok true
  | some p => do return decide ((← positionIn table p) < first)

/-- The span of a node, unless it stands before its parent. -/
def spanIn (table : Array (Option Nat)) (last i : Nat) (n : Node) :
    Except Fault (Except TreeProblem Span) := do
  let first ← positionIn table i
  if ← parentBefore table first n then return .ok ⟨first, ← lastUseIn table last n⟩
  else return .error .beforeParent

/-- The spans of nodes, up to the first that stands before its parent. -/
def spansIn (table : Array (Option Nat)) (last : Nat) : List (Node × Nat) →
    Except Fault (Except TreeProblem (List Span))
  | [] => .ok (.ok [])
  | (n, i) :: rest => do
    match ← spanIn table last i n with
    | .error e => return .error e
    | .ok s => return (← spansIn table last rest).map (s :: ·)

def livenessByTables (t : Tree) : Except Fault (Except TreeProblem Liveness) :=
  if t.order.head? ≠ some 0 then .ok (.error .notFromRoot)
  else if t.order.length ≠ t.size then .ok (.error .notEveryNode)
  else match fillPositions (Array.replicate t.size none) 0 t.order with
    | .error e => .ok (.error e)
    | .ok table => do
      let last ← Checked.sub t.size 1
      return (← spansIn table last t.nodes.toList.zipIdx).map (⟨·⟩)

def conflictsByTables (t : Tree) (spans : Array Span) (a b : Nat) : Except Fault Bool :=
  if a = b then .ok false
  else do
    let n ← Checked.get t.nodes a
    let m ← Checked.get t.nodes b
    if n.parent = some b ∨ m.parent = some a then return true
    else if n.parent.isSome ∧ n.parent = m.parent then return true
    else return (← Checked.get spans a).meets (← Checked.get spans b)

def clashByTables (t : Tree) (spans : Array Span) (a b : Placed) : Except Fault Bool :=
  if a.start < b.stop ∧ b.start < a.stop then t.conflictsByTables spans a.node b.node else .ok false

def noClashByTables (t : Tree) (spans : Array Span) : List Placed → Except Fault Bool
  | [] => .ok true
  | p :: ps => do
    if (← ps.mapM (t.clashByTables spans p)).any id then return false
    else t.noClashByTables spans ps

def validateByTables (t : Tree) : Except Fault Bool := do
  match ← t.livenessByTables with
  | .error _ => return false
  | .ok l =>
    if ¬ t.ItemsDistinct then return false
    else match t.ranges? with
      | none => return false
      | some ranges => t.noClashByTables l.spans.toArray ranges

variable {t : Tree}

/-- The table holds the positions of `placed`, a list of nodes below `count` without repetition. -/
def Holds (count : Nat) (placed : List Nat) (table : Array (Option Nat)) : Prop :=
  table.size = count ∧
    ∀ i < count, table[i]? = some (if i ∈ placed then some (placed.idxOf i) else none)

theorem holds_nil (count : Nat) : Holds count [] (Array.replicate count none) := by
  refine ⟨by simp, fun i hi => ?_⟩
  simp [hi]

theorem Holds.push {count : Nat} {placed : List Nat} {table : Array (Option Nat)} {i : Nat}
    (h : Holds count placed table) (hi : i < count) (hnew : i ∉ placed) :
    Holds count (placed ++ [i]) (table.setIfInBounds i (some placed.length)) := by
  refine ⟨by simpa using h.1, fun j hj => ?_⟩
  rw [Array.getElem?_setIfInBounds]
  by_cases hij : i = j
  · subst hij
    simp [h.1, hi, List.idxOf_append, hnew]
  · have hji : j ≠ i := Ne.symm hij
    rw [if_neg hij, h.2 j hj]
    by_cases hp : j ∈ placed <;> simp [hp, hji, List.idxOf_append]

/-- Filling the table is the check of the entries, and a full table holds every position. -/
theorem fillPositions_eq {count : Nat} {seen placed : List Nat} {table : Array (Option Nat)}
    (rest : List Nat) (h : Holds count placed table) (hseen : ∀ i, i ∈ seen ↔ i ∈ placed) :
    match checkEntries count seen rest with
    | .error e => fillPositions table placed.length rest = .error e
    | .ok () => ∃ full, fillPositions table placed.length rest = .ok full ∧
        Holds count (placed ++ rest) full := by
  induction rest generalizing seen placed table with
  | nil => exact ⟨table, rfl, by simpa using h⟩
  | cons i rest ih =>
    simp only [checkEntries, fillPositions]
    by_cases hi : count ≤ i
    · have hnone : table[i]? = none := Array.getElem?_eq_none (h.1 ▸ hi)
      simp [hi, hnone]
    · have hi' : i < count := Nat.lt_of_not_le hi
      rw [if_neg hi, h.2 i hi']
      by_cases hs : i ∈ seen
      · simp [hs, (hseen i).1 hs]
      · have hp : i ∉ placed := fun hp => hs ((hseen i).2 hp)
        have hlen : (placed ++ [i]).length = placed.length + 1 := by simp
        have hseen' : ∀ j, j ∈ i :: seen ↔ j ∈ placed ++ [i] := by
          intro j
          rw [List.mem_cons, List.mem_append, List.mem_singleton, hseen, or_comm]
        have hrec := ih (h.push hi' hp) hseen'
        rw [hlen, List.append_assoc] at hrec
        simpa [hs, hp] using hrec

section Filled

variable (ht : t.Linked) {table : Array (Option Nat)} (hp : t.order.Perm (List.range t.size))
  (h : Holds t.size t.order table)
include hp h

theorem positionIn_eq {i : Nat} (hi : i < t.size) : positionIn table i = .ok (t.position i) := by
  have hmem : i ∈ t.order := hp.mem_iff.2 (List.mem_range.2 hi)
  have hget := h.2 i hi
  rw [if_pos hmem] at hget
  simp only [positionIn, Checked.get, hget]
  rfl

include ht

theorem lastUseIn_eq {i : Nat} {n : Node} (hn : t.nodes[i]? = some n) :
    lastUseIn table (t.size - 1) n = .ok (t.lastUse n) := by
  have hchildren : n.children.mapM (positionIn table) = .ok (n.children.map t.position) := by
    refine mapM_eq_ok fun c hc => positionIn_eq hp h ?_
    rw [← children_of_getElem? hn, ht.mem_children] at hc
    exact lt_size_of_parent? hc
  unfold lastUseIn lastUse
  cases hr : n.retained with
  | true => rfl
  | false =>
    cases hc : n.children with
    | nil => rfl
    | cons c cs =>
      rw [hc] at hchildren
      simp only [List.isEmpty_cons, Bool.or_false, Bool.false_eq_true, if_false, hchildren]
      cases hm : ((c :: cs).map t.position).max? with
      | none => simp at hm
      | some last => simp only [bind, Except.bind, hm, Option.getD_some, pure, Except.pure]

theorem parentBefore_eq {i : Nat} {n : Node} (hn : t.nodes[i]? = some n) :
    parentBefore table (t.position i) n =
      .ok (decide (∀ p ∈ n.parent, t.position p < t.position i)) := by
  unfold parentBefore
  cases hq : n.parent with
  | none => simp
  | some p =>
    have hpi : t.parent? i = some p := (parent?_of_getElem? hn).trans hq
    have hlt := ht.parent?_lt hpi
    have hi := (Array.getElem?_eq_some_iff.1 hn).1
    simp only [positionIn_eq hp h (Nat.lt_trans hlt hi)]
    simp [bind, Except.bind, pure, Except.pure]

theorem spansIn_eq (nodes : List (Node × Nat)) (hnodes : ∀ q ∈ nodes, t.nodes[q.2]? = some q.1) :
    spansIn table (t.size - 1) nodes = .ok
      (if ∀ q ∈ nodes, ∀ p ∈ q.1.parent, t.position p < t.position q.2 then
        .ok (nodes.map fun q => ⟨t.position q.2, t.lastUse q.1⟩)
      else .error .beforeParent) := by
  induction nodes with
  | nil => rfl
  | cons q rest ih =>
    obtain ⟨n, i⟩ := q
    have hn := hnodes (n, i) List.mem_cons_self
    have hi := (Array.getElem?_eq_some_iff.1 hn).1
    have hrest := ih fun q hq => hnodes q (List.mem_cons_of_mem _ hq)
    have hspan : spanIn table (t.size - 1) i n = .ok
        (if ∀ p ∈ n.parent, t.position p < t.position i then
          .ok ⟨t.position i, t.lastUse n⟩ else .error .beforeParent) := by
      simp only [spanIn, positionIn_eq hp h hi, parentBefore_eq ht hp h hn, lastUseIn_eq ht hp h hn,
        bind, Except.bind, pure, Except.pure, decide_eq_true_eq]
      split <;> rfl
    rw [spansIn, hspan]
    by_cases hfirst : ∀ p ∈ n.parent, t.position p < t.position i
    · rw [if_pos hfirst, hrest]
      by_cases hall : ∀ q ∈ rest, ∀ p ∈ q.1.parent, t.position p < t.position q.2
      · rw [if_pos hall, if_pos (List.forall_mem_cons.2 ⟨hfirst, hall⟩)]
        rfl
      · rw [if_neg hall, if_neg fun h => hall (List.forall_mem_cons.1 h).2]
        rfl
    · rw [if_neg hfirst, if_neg fun hall => hfirst (hall (n, i) List.mem_cons_self)]
      rfl

end Filled

theorem parentsFirst_iff_zipIdx : t.ParentsFirst ↔
    ∀ q ∈ t.nodes.toList.zipIdx, ∀ p ∈ q.1.parent, t.position p < t.position q.2 := by
  rw [parentsFirst_iff]
  constructor
  · rintro h ⟨n, i⟩ hq p hp
    exact h i p ((parent?_of_getElem? (mem_zipIdx_nodes.1 hq)).trans hp)
  · intro h i p hp
    have hn := Array.getElem?_eq_getElem (show i < t.nodes.size from lt_size_of_parent? hp)
    exact h _ (mem_zipIdx_nodes.2 hn) p ((parent?_of_getElem? hn).symm.trans hp)

theorem livenessByTables_eq (ht : t.Linked) : t.livenessByTables = .ok t.liveness := by
  unfold livenessByTables liveness
  split
  · rfl
  · split
    · rfl
    · rename_i hlen
      rw [ne_eq, not_not] at hlen
      have hfill := fillPositions_eq t.order (holds_nil t.size) fun i => Iff.rfl
      rw [List.length_nil, List.nil_append] at hfill
      cases hc : checkEntries t.size [] t.order with
      | error e =>
        rw [hc] at hfill
        simp only [hfill]
      | ok u =>
        rw [hc] at hfill
        obtain ⟨table, htable, hholds⟩ := hfill
        obtain ⟨hentries, hn⟩ := (checkEntries_eq_ok_iff _ _ _).1 hc
        have hperm := (perm_range_iff t.size t.order).2 ⟨hlen, fun i hi => (hentries i hi).1, hn⟩
        have hspans := spansIn_eq ht hperm hholds t.nodes.toList.zipIdx
          fun q hq => mem_zipIdx_nodes.1 hq
        rw [← if_congr parentsFirst_iff_zipIdx rfl rfl] at hspans
        simp only [htable, Checked.sub_eq_ok ht.size_pos, hspans, bind, Except.bind, pure,
          Except.pure, List.mapIdx_eq_zipIdx_map]
        split <;> rfl

theorem conflictsByTables_eq {a b : Nat} (ha : a < t.nodes.size) (hb : b < t.nodes.size) :
    t.conflictsByTables t.spans.toArray a b = .ok (Liveness.conflicts ⟨t.spans⟩ t a b) := by
  have hn : t.nodes[a]? = some (t.nodes[a]) := Array.getElem?_eq_getElem ha
  have hm : t.nodes[b]? = some (t.nodes[b]) := Array.getElem?_eq_getElem hb
  have hsize : t.spans.toArray.size = t.size := by simp [length_spans]
  have hspan (i : Nat) (hi : i < t.size) :
      Checked.get t.spans.toArray i = .ok (Liveness.span ⟨t.spans⟩ i) := by
    rw [Checked.get_eq_ok (hsize ▸ hi)]
    simp [Liveness.span, List.getElem?_eq_getElem (length_spans t ▸ hi)]
  unfold conflictsByTables Liveness.conflicts
  by_cases hab : a = b
  · simp [hab]
  · rw [if_neg hab, Checked.get_eq_ok ha, Checked.get_eq_ok hb, hspan a ha, hspan b hb,
      parent?_of_getElem? hn, parent?_of_getElem? hm]
    simp only [bind, Except.bind, pure, Except.pure]
    by_cases hlink : t.nodes[a].parent = some b ∨ t.nodes[b].parent = some a
    · rcases hlink with h | h <;> simp [h, hab]
    · obtain ⟨h, h'⟩ := not_or.1 hlink
      rw [if_neg hlink, beq_eq_false_iff_ne.2 h, beq_eq_false_iff_ne.2 h']
      by_cases hs : t.nodes[a].parent.isSome ∧ t.nodes[a].parent = t.nodes[b].parent
      · rw [if_pos hs, hs.1, beq_iff_eq.2 hs.2]
        simp [hab]
      · have hs' :
            (t.nodes[a].parent.isSome && t.nodes[a].parent == t.nodes[b].parent) = false := by
          simpa using hs
        rw [if_neg hs, hs']
        simp [hab]

theorem clashByTables_eq {a b : Placed} (ha : a.node < t.size) (hb : b.node < t.size) :
    t.clashByTables t.spans.toArray a b = .ok (clash ⟨t.spans⟩ t a b) := by
  unfold clashByTables clash
  by_cases hover : a.start < b.stop ∧ b.start < a.stop
  · rw [if_pos hover, conflictsByTables_eq ha hb]
    simp [hover]
  · rw [if_neg hover]
    congr 1
    grind

theorem noClashByTables_eq {ps : List Placed} (h : ∀ p ∈ ps, p.node < t.size) :
    t.noClashByTables t.spans.toArray ps = .ok (noClash ⟨t.spans⟩ t ps) := by
  induction ps with
  | nil => rfl
  | cons p ps ih =>
    have hp := h p List.mem_cons_self
    have hps := fun q hq => h q (List.mem_cons_of_mem p hq)
    have hclash : ps.mapM (t.clashByTables t.spans.toArray p) =
        .ok (ps.map (clash ⟨t.spans⟩ t p)) :=
      mapM_eq_ok fun q hq => clashByTables_eq hp (hps q hq)
    simp only [noClashByTables, noClash, hclash, ih hps, bind, Except.bind, pure, Except.pure]
    cases hany : (ps.map (clash ⟨t.spans⟩ t p)).any id with
    | true =>
      obtain ⟨q, hq, hc⟩ : ∃ q ∈ ps, clash ⟨t.spans⟩ t p q = true := by simpa using hany
      have hall : ps.all (!clash ⟨t.spans⟩ t p ·) = false := by
        simpa using ⟨q, hq, hc⟩
      simp [hall]
    | false =>
      have hall : ps.all (!clash ⟨t.spans⟩ t p ·) = true := by
        simpa using hany
      simp [hall]

/-- Checking with tables never looks outside a table, and gives the same answer. -/
theorem validateByTables_eq (ht : t.Linked) : t.validateByTables = .ok t.validate := by
  unfold validateByTables validate
  rw [livenessByTables_eq ht]
  cases hl : t.liveness with
  | error e => rfl
  | ok l =>
    obtain ⟨-, rfl⟩ := (liveness_eq_ok_iff ht).1 hl
    simp only [bind, Except.bind, pure, Except.pure]
    by_cases hi : t.ItemsDistinct
    · cases hr : t.ranges? with
      | none => simp [hi]
      | some ranges =>
        have hnodes : ∀ p ∈ ranges, p.node < t.size := by
          intro p hp
          obtain ⟨n, hn, -⟩ := ((ranges?_eq_some hr).1 p).1 hp
          exact (Array.getElem?_eq_some_iff.1 hn).1
        simp [hi, noClashByTables_eq hnodes]
    · simp [hi]

end Timbre.Memory.Tree
