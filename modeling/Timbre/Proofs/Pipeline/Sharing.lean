import Mathlib.Algebra.Module.Submodule.Lattice
import Mathlib.Data.List.Permutation
import Mathlib.Tactic.ByContra
import Timbre.Proofs.Memory.Validity
import Timbre.Proofs.Pipeline.History
import Timbre.Proofs.Pipeline.Release

/-! # Shared memory

The liveness of the tree and the releases of the steps are computed apart. Both say the same: a node
is live at a position exactly if its output is held there. A step and the one it reads from are held
together, and so are brothers, because no step reads from the elder before the younger has run: in
breadth-first order the parents of the nodes never decrease. So two nodes conflict exactly if some
step works while both outputs are held, and what is held at the same time never overlaps in memory.
The first two imports hold the equations of `≤` and `Prod.snd` with which `cbv` evaluates a closed
pipeline.
-/
namespace Timbre

theorem Step.exists_isLastReader {steps : List Step} {i k : Nat} {s : Step}
    (hs : steps[k]? = some s) (hi : s.input = some i) : ∃ k, IsLastReader steps i k := by
  have hmem := mem_readers (x := (s, k)) |>.2 ⟨hs, hi⟩
  cases hlast : lastReader? steps i with
  | some r => exact ⟨r, lastReader?_eq_some_iff.1 hlast⟩
  | none =>
    rw [lastReader?, Option.map_eq_none_iff, List.getLast?_eq_none_iff] at hlast
    rw [hlast] at hmem
    exact absurd hmem List.not_mem_nil

namespace Pipeline

variable {p : Pipeline} {i j q : Nat}

section Scheduled

variable (h : p.Scheduled)
include h

theorem Scheduled.ordered : p.tree.Ordered :=
  ((Memory.Tree.validate_eq_true_iff h.linked).1 h.valid).ordered

theorem Scheduled.order_getElem? {a c : Nat} :
    p.tree.order[a]? = some c ↔ a = c ∧ c < p.steps.length + 1 := by
  rw [h.order_eq, h.size_eq, List.getElem?_eq_some_iff]
  simp only [List.length_range, List.getElem_range]
  constructor
  · rintro ⟨ha, rfl⟩
    exact ⟨rfl, ha⟩
  · rintro ⟨rfl, ha⟩
    exact ⟨ha, rfl⟩

theorem Scheduled.mem_children_iff {n : Memory.Node} (hn : p.tree.nodes[i + 1]? = some n)
    {c : Nat} : c ∈ n.children ↔ ∃ k s, c = k + 1 ∧ p.steps[k]? = some s ∧ s.input = some i := by
  rw [← Memory.Tree.children_of_getElem? hn, h.linked.mem_children]
  constructor
  · intro hc
    have hlt := Memory.Tree.lt_size_of_parent? hc
    have hpos := h.linked.parent?_lt hc
    obtain ⟨k, rfl⟩ := Nat.exists_eq_succ_of_ne_zero (Nat.ne_of_gt (Nat.zero_lt_of_lt hpos))
    rw [h.size_eq] at hlt
    have hs := List.getElem?_eq_getElem (Nat.lt_of_succ_lt_succ hlt)
    refine ⟨k, _, rfl, hs, ?_⟩
    rw [h.parent?_eq k _ hs] at hc
    exact Step.inputNode_eq_succ_iff.1 (Option.some_inj.1 hc)
  · rintro ⟨k, s, rfl, hs, hi⟩
    rw [h.parent?_eq k s hs, Step.inputNode_eq_succ_iff.2 hi]

theorem Scheduled.exists_node (hi : i < p.steps.length) :
    ∃ n, p.tree.nodes[i + 1]? = some n ∧
      (n.retained = true ↔ p.steps[i].features ≠ []) := by
  obtain ⟨m, hm, hr⟩ := h.retained i _ (List.getElem?_eq_getElem hi)
  obtain ⟨n, hn, rfl⟩ := Option.map_eq_some_iff.1 hm
  exact ⟨n, hn, hr⟩

/-- The two computations of lifetimes agree. -/
theorem Scheduled.heldAt_iff_liveAt (hi : i < p.steps.length) :
    p.HeldAt i q ↔ p.tree.LiveAt (i + 1) (q + 1) := by
  obtain ⟨n, hn, hretained⟩ := h.exists_node hi
  have hs := List.getElem?_eq_getElem hi
  have hlen : p.tree.order.length = p.steps.length + 1 := by
    rw [h.order_eq, List.length_range, h.size_eq]
  constructor
  · rintro ⟨hle, hq, hrelease⟩
    refine ⟨n, hn, by omega, ⟨i + 1, h.order_getElem?.2 ⟨rfl, by omega⟩, by omega⟩, ?_⟩
    by_cases hfeatures : p.steps[i].features = []
    · by_cases hchildren : n.children = []
      · exact .inr (.inl hchildren)
      · obtain ⟨c, hc⟩ := List.exists_mem_of_ne_nil _ hchildren
        obtain ⟨k, s, -, hk, hki⟩ := (h.mem_children_iff hn).1 hc
        obtain ⟨r, hr⟩ := Step.exists_isLastReader hk hki
        obtain ⟨⟨t, ht, hti⟩, -⟩ := id hr
        have hqr := hrelease r t ht ((h.release r t ht i).2 ⟨⟨_, hs, hfeatures⟩, hr⟩)
        have hrlt := (List.getElem?_eq_some_iff.1 ht).1
        exact .inr (.inr ⟨r + 1, (h.mem_children_iff hn).2 ⟨r, t, rfl, ht, hti⟩, r + 1,
          h.order_getElem?.2 ⟨rfl, by omega⟩, by omega⟩)
    · exact .inl (hretained.2 hfeatures)
  · rintro ⟨n', hn', hq, ⟨a, ha, haq⟩, huse⟩
    rw [hn] at hn'
    cases hn'
    obtain ⟨rfl, -⟩ := h.order_getElem?.1 ha
    refine ⟨by omega, by omega, fun r s hr hmem => ?_⟩
    obtain ⟨⟨t, ht, hfeatures⟩, ⟨s', hs', hsi⟩, hlast⟩ := (h.release r s hr i).1 hmem
    rw [hs] at ht
    cases ht
    rcases huse with hret | hleaf | ⟨c, hc, b, hb, hqb⟩
    · exact absurd hfeatures (hretained.1 hret)
    · have hc := (h.mem_children_iff hn).2 ⟨r, s', rfl, hs', hsi⟩
      rw [hleaf] at hc
      exact absurd hc List.not_mem_nil
    · obtain ⟨k, u, rfl, hu, hui⟩ := (h.mem_children_iff hn).1 hc
      have hkr := hlast k u hu hui
      have hbk := (h.order_getElem?.1 hb).1
      omega

theorem Scheduled.heldAt_of_siblings {s t : Step} (hij : i < j) (hs : p.steps[i]? = some s)
    (ht : p.steps[j]? = some t) (hst : s.inputNode = t.inputNode) : p.HeldAt i j := by
  refine ⟨hij.le, (List.getElem?_eq_some_iff.1 ht).1, fun r u hr hmem => ?_⟩
  obtain ⟨-, ⟨v, hv, hvi⟩, -⟩ := (h.release r u hr i).1 hmem
  by_contra hjr
  have hsorted := h.sorted r j v t (Nat.not_le.1 hjr).le hv ht
  have hle := h.inputNode_le hs
  rw [Step.inputNode_eq_succ_iff.2 hvi, ← hst] at hsorted
  omega

theorem Scheduled.exists_heldAt_of_inputNode_eq {s t : Step} (hij : i ≠ j)
    (hs : p.steps[i]? = some s) (ht : p.steps[j]? = some t) (hst : s.inputNode = t.inputNode) :
    ∃ q, p.HeldAt i q ∧ p.HeldAt j q := by
  have hi := (List.getElem?_eq_some_iff.1 hs).1
  have hj := (List.getElem?_eq_some_iff.1 ht).1
  rcases Nat.lt_or_gt_of_ne hij with hlt | hlt
  · exact ⟨j, h.heldAt_of_siblings hlt hs ht hst, h.heldAt_self hj⟩
  · exact ⟨i, h.heldAt_self hi, h.heldAt_of_siblings hlt ht hs hst.symm⟩

/-- The nodes of two steps conflict exactly if both outputs are held at some step. -/
theorem Scheduled.conflict_iff {s t : Step} (hij : i ≠ j) (hs : p.steps[i]? = some s)
    (ht : p.steps[j]? = some t) :
    p.tree.Conflict (i + 1) (j + 1) ↔ ∃ q, p.HeldAt i q ∧ p.HeldAt j q := by
  have hi := (List.getElem?_eq_some_iff.1 hs).1
  have hj := (List.getElem?_eq_some_iff.1 ht).1
  constructor
  · intro hc
    cases hc with
    | parent hp =>
      rw [h.parent?_eq i s hs, Option.some_inj, Step.inputNode_eq_succ_iff] at hp
      exact ⟨i, h.heldAt_self hi, h.heldAt_of_input hs hp⟩
    | child hp =>
      rw [h.parent?_eq j t ht, Option.some_inj, Step.inputNode_eq_succ_iff] at hp
      exact ⟨j, h.heldAt_of_input ht hp, h.heldAt_self hj⟩
    | siblings c hp hp' =>
      rw [h.parent?_eq i s hs, Option.some_inj] at hp
      rw [h.parent?_eq j t ht, Option.some_inj] at hp'
      exact h.exists_heldAt_of_inputNode_eq hij hs ht (hp.trans hp'.symm)
    | live k hk hk' =>
      obtain ⟨-, -, -, ⟨a, ha, hak⟩, -⟩ := id hk
      have hpos := (h.order_getElem?.1 ha).1
      obtain ⟨q, rfl⟩ : ∃ q, k = q + 1 := ⟨k - 1, by omega⟩
      exact ⟨q, (h.heldAt_iff_liveAt hi).2 hk, (h.heldAt_iff_liveAt hj).2 hk'⟩
  · rintro ⟨q, hq, hq'⟩
    exact .live (q + 1) ((h.heldAt_iff_liveAt hi).1 hq) ((h.heldAt_iff_liveAt hj).1 hq')

theorem Scheduled.disjoint_of_heldAt {s t : Step} {n m : Memory.Node} (hij : i ≠ j)
    (hs : p.steps[i]? = some s) (ht : p.steps[j]? = some t) (hi : p.HeldAt i q) (hj : p.HeldAt j q)
    (hn : p.tree.nodes[s.node]? = some n) (hm : p.tree.nodes[t.node]? = some m)
    (hpos : 0 < n.size) (hpos' : 0 < m.size) : ∃ a b, n.address = some a ∧ m.address = some b ∧
      (a + n.size ≤ b ∨ b + m.size ≤ a) := by
  have hvalid := (Memory.Tree.validate_eq_true_iff h.linked).1 h.valid
  obtain ⟨a, ha, -⟩ := hvalid.placed _ n hn hpos
  obtain ⟨b, hb, -⟩ := hvalid.placed _ m hm hpos'
  have hconflict := (h.conflict_iff hij hs ht).2 ⟨q, hi, hj⟩
  rw [← h.node_eq i s hs, ← h.node_eq j t ht] at hconflict
  have hne : s.node ≠ t.node := by
    rw [h.node_eq i s hs, h.node_eq j t ht]
    omega
  exact ⟨a, b, ha, hb, hvalid.disjoint _ _ n m a b hne hn hm hpos hpos' hconflict ha hb⟩

end Scheduled

end Pipeline

namespace Builder

section Sharing

variable (registry : Registry) (source : AnyFormat) (count : Nat) (calls : List Call)
  (config : Config) (available : Nat) (write : (path text : String) → Except Error Unit)
  (p : Pipeline)

/-- In a pipeline that was built, the nodes of two steps conflict exactly if a step works while both
outputs are held; in every run, the outputs that are there while a step works are those that are
held, and those among them that take memory do not overlap. -/
theorem conflicts_iff_heldAt
    (h : ((fresh registry source count).after calls).build config available write = .ok p) :
    (∃ l, p.tree.liveness = .ok l ∧
      ∀ (i j : Nat) s t, i ≠ j → p.steps[i]? = some s → p.steps[j]? = some t →
        (l.conflicts p.tree s.node t.node = true ↔ ∃ q, p.HeldAt i q ∧ p.HeldAt j q)) ∧
    ∀ (input : AnyBuffers) (q : Nat) r output, q < p.steps.length →
      p.runSteps input p.start 0 (p.steps.take q) = .ok r →
        (∀ i, (∃ b, (r.write q output)[i]? = some (some b)) ↔ p.HeldAt i q) ∧
        ∀ (i j : Nat) s t b c n m, i ≠ j → p.steps[i]? = some s → p.steps[j]? = some t →
          (r.write q output)[i]? = some (some b) → (r.write q output)[j]? = some (some c) →
          p.tree.nodes[s.node]? = some n → p.tree.nodes[t.node]? = some m →
          0 < n.size → 0 < m.size → ∃ a a', n.address = some a ∧ m.address = some a' ∧
            (a + n.size ≤ a' ∨ a' + m.size ≤ a) := by
  obtain ⟨order, hp⟩ := schedules_of_build (wellFormed_after registry source count calls) h
  have hs := hp.scheduled
  have hordered := hs.ordered
  constructor
  · refine ⟨_, (Memory.Tree.liveness_eq_ok_iff hs.linked).2 ⟨hordered, rfl⟩, ?_⟩
    intro i j s t hij hi hj
    have hilt := (List.getElem?_eq_some_iff.1 hi).1
    have hjlt := (List.getElem?_eq_some_iff.1 hj).1
    have hsize := hs.size_eq
    rw [hs.node_eq i s hi, hs.node_eq j t hj, ← hs.conflict_iff hij hi hj,
      Memory.Tree.conflicts_eq_true_iff hs.linked hordered (by omega) (by omega)]
    exact and_iff_right (by omega)
  · intro input q r output hq hrun
    obtain ⟨outs, rfl, hr⟩ := hs.reached_of_take hq.le hrun
    have hwrite (i : Nat) := hr.write_iff (i := i) hs hq output
    refine ⟨hwrite, ?_⟩
    intro i j s t b c n m hij hi hj hb hc hn hm hpos hpos'
    exact hs.disjoint_of_heldAt hij hi hj ((hwrite i).1 ⟨b, hb⟩) ((hwrite j).1 ⟨c, hc⟩) hn hm
      hpos hpos'

end Sharing

def threeInARow : Builder :=
  (fresh .builtin ⟨Signal, ⟨(4 : Nat), some .wideband⟩⟩ 2).after
    [.addFeature "third" (List.replicate 3 ⟨"Diff", .empty⟩)]

/-- The last stage may take the memory of the first: no step needs both. -/
theorem conflicts_threeInARow : ∃ p l, threeInARow.build {} 1 (fun _ _ => .ok ()) = .ok p ∧
    p.tree.liveness = .ok l ∧ l.conflicts p.tree 1 3 = false ∧
      ¬ ∃ q, p.HeldAt 0 q ∧ p.HeldAt 2 q := by
  have hrun : (threeInARow.build {} 1 (fun _ _ => .ok ())).toOption.map (fun p =>
      (p.steps.map (·.node), p.tree.liveness.toOption.map (·.conflicts p.tree 1 3))) =
        some ([1, 2, 3], some false) := by cbv
  cases hp : threeInARow.build {} 1 (fun _ _ => .ok ()) with
  | error e => simp [hp, Except.toOption] at hrun
  | ok p =>
    obtain ⟨⟨l, hl, hiff⟩, -⟩ := conflicts_iff_heldAt _ _ _ _ _ _ _ p hp
    simp only [hp, hl, Except.toOption, Option.map_some, Option.some.injEq, Prod.mk.injEq] at hrun
    obtain ⟨hnodes, hfalse⟩ := hrun
    have hnode (i : Nat) : (p.steps[i]?).map (·.node) = [1, 2, 3][i]? := by
      rw [← List.getElem?_map, hnodes]
    obtain ⟨s, hs, hs1⟩ := Option.map_eq_some_iff.1 (hnode 0)
    obtain ⟨t, ht, ht3⟩ := Option.map_eq_some_iff.1 (hnode 2)
    refine ⟨p, l, rfl, hl, hfalse, fun hq => ?_⟩
    have := (hiff 0 2 s t (by decide) hs ht).2 hq
    rw [hs1, ht3, hfalse] at this
    cases this

end Builder

end Timbre
