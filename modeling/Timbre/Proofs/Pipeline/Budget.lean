import Timbre.Proofs.Memory.Packing
import Timbre.Proofs.Pipeline.Sharing
import Timbre.Proofs.Stage

/-! # The memory of a run

The outputs that are held while a step works have ranges that do not overlap and that end within the
footprint of the layout. So their sizes together are no more than the footprint, and the footprint
is within the limit that the pipeline was built with. Main statement: `heldBytes_le_footprint`.
-/
namespace Timbre

namespace Memory

def rangeBytes (start size : Nat) : List Nat := List.range' start size

theorem mem_rangeBytes {start size byte : Nat} :
    byte ∈ rangeBytes start size ↔ start ≤ byte ∧ byte < start + size := List.mem_range'_1

/-- Ranges that end within a bound and do not overlap take no more than the bound together. A range
of size zero may start anywhere. -/
theorem sum_size_le {α : Type*} {xs : List α} (start size : α → Nat) {bound : Nat}
    (hle : ∀ x ∈ xs, 0 < size x → start x + size x ≤ bound)
    (hapart : xs.Pairwise fun x y => 0 < size x → 0 < size y →
      start x + size x ≤ start y ∨ start y + size y ≤ start x) : (xs.map size).sum ≤ bound := by
  have hnodup : (xs.flatMap fun x => rangeBytes (start x) (size x)).Nodup := by
    refine List.nodup_flatMap.2 ⟨fun x _ => List.nodup_range', hapart.imp ?_⟩
    intro x y hxy byte hx hy
    have hbx := mem_rangeBytes.1 hx
    have hby := mem_rangeBytes.1 hy
    have := hxy (by omega) (by omega)
    omega
  have hsub : (xs.flatMap fun x => rangeBytes (start x) (size x)) ⊆ List.range bound := by
    intro byte hbyte
    obtain ⟨x, hx, hbyte⟩ := List.mem_flatMap.1 hbyte
    have hb := mem_rangeBytes.1 hbyte
    have := hle x hx (by omega)
    exact List.mem_range.2 (by omega)
  have hlen := (List.subperm_of_subset hnodup hsub).length_le
  simpa [List.length_flatMap, rangeBytes] using hlen

namespace Tree

variable {t : Tree} {i : Nat}

def startOf (t : Tree) (i : Nat) : Nat := ((t.nodes[i]?).bind (·.address)).getD 0

theorem startOf_of_address {n : Node} {a : Nat} (hn : t.nodes[i]? = some n)
    (ha : n.address = some a) : t.startOf i = a := by
  simp [startOf, hn, ha]

theorem exists_node_of_sizeOf_pos (h : 0 < t.sizeOf i) :
    ∃ n, t.nodes[i]? = some n ∧ t.sizeOf i = n.size := by
  cases hn : t.nodes[i]? with
  | none => simp [sizeOf, hn] at h
  | some n => exact ⟨n, rfl, sizeOf_of_getElem? hn⟩

theorem Valid.stop_le_footprint (h : t.Valid) (hpos : 0 < t.sizeOf i) :
    t.startOf i + t.sizeOf i ≤ t.footprint := by
  obtain ⟨n, hn, hsize⟩ := exists_node_of_sizeOf_pos hpos
  rw [hsize] at hpos ⊢
  obtain ⟨a, ha, hmax⟩ := h.placed i n hn hpos
  have hrange : n.range? = some (a, a + n.size) := range?_eq_some_iff.2 ⟨ha, hmax, rfl⟩
  rw [startOf_of_address hn ha]
  exact le_footprint hn hpos hrange

end Tree

end Memory

namespace Pipeline

variable {p : Pipeline}

/-- The bytes that the lifetime tree has for the outputs that are there. -/
def heldBytes (p : Pipeline) (held : Array (Option AnyBuffers)) : Nat :=
  ((p.steps.zipIdx.filter fun x => held[x.2]?.join.isSome).map fun x =>
    p.tree.sizeOf x.1.node).sum

theorem mem_held_iff {held : Array (Option AnyBuffers)} {x : Step × Nat} :
    (x ∈ p.steps.zipIdx.filter fun x => held[x.2]?.join.isSome) ↔
      p.steps[x.2]? = some x.1 ∧ ∃ b, held[x.2]? = some (some b) := by
  rw [List.mem_filter, List.mem_zipIdx_iff_getElem?, Option.isSome_iff_exists]
  simp only [Option.join_eq_some_iff]

theorem Scheduled.heldBytes_le (h : p.Scheduled) {q : Nat} {held : Array (Option AnyBuffers)}
    (hheld : ∀ i, (∃ b, held[i]? = some (some b)) → p.HeldAt i q) :
    p.heldBytes held ≤ p.tree.footprint := by
  have hvalid := (Memory.Tree.validate_eq_true_iff h.linked).1 h.valid
  refine Memory.sum_size_le (fun x : Step × Nat => p.tree.startOf x.1.node)
    (fun x => p.tree.sizeOf x.1.node) (fun x _ hpos => hvalid.stop_le_footprint hpos) ?_
  have hsorted := Step.pairwise_zipIdx_filter p.steps fun x => held[x.2]?.join.isSome
  refine hsorted.imp_of_mem ?_
  intro x y hx hy hlt hpos hpos'
  obtain ⟨hxs, hxb⟩ := mem_held_iff.1 hx
  obtain ⟨hys, hyb⟩ := mem_held_iff.1 hy
  obtain ⟨n, hn, hsize⟩ := Memory.Tree.exists_node_of_sizeOf_pos hpos
  obtain ⟨m, hm, hsize'⟩ := Memory.Tree.exists_node_of_sizeOf_pos hpos'
  rw [hsize] at hpos ⊢
  rw [hsize'] at hpos' ⊢
  obtain ⟨a, b, ha, hb, hdisjoint⟩ := h.disjoint_of_heldAt (Nat.ne_of_lt hlt) hxs hys
    (hheld x.2 hxb) (hheld y.2 hyb) hn hm hpos hpos'
  rw [Memory.Tree.startOf_of_address hn ha, Memory.Tree.startOf_of_address hm hb]
  exact hdisjoint

end Pipeline

namespace Builder

theorem Schedules.sizeOf_node {b : Builder} {p : Pipeline} {order : List (Nat × Nat)}
    (h : b.Schedules p order) {k : Nat} {s : Step} (hs : p.steps[k]? = some s) :
    p.tree.sizeOf s.node =
      s.transform.outputFormat.format.paddedBytes * s.transform.outputCount := by
  obtain ⟨x, e, hx, he, hprepare, -⟩ := h.stage k s hs
  obtain ⟨m, hm, -, hsize⟩ := h.block k x e hx he
  obtain ⟨n, hn, rfl⟩ := Option.map_eq_some_iff.1 hm
  obtain ⟨hformat, hcount⟩ := Transform.outputFormat_of_prepare hprepare
  rw [h.scheduled.node_eq k s hs, Memory.Tree.sizeOf_of_getElem? hn, hsize, hformat, hcount,
    blockSize]

/-- At every step of every run of a pipeline that was built, the nodes of the outputs that are
there, the one that is being written among them, are together no larger than the footprint of the
layout, and so no larger than the limit if there is one. A node has the padded size of an element,
as often as its stage writes one. -/
theorem heldBytes_le_footprint (registry : Registry) (source : AnyFormat) (count : Nat)
    (calls : List Call) (config : Config) (available : Nat)
    (write : (path text : String) → Except Error Unit) (p : Pipeline)
    (h : ((fresh registry source count).after calls).build config available write = .ok p) :
    (∀ (k : Nat) s, p.steps[k]? = some s → p.tree.sizeOf s.node =
      s.transform.outputFormat.format.paddedBytes * s.transform.outputCount) ∧
    ∀ (input : AnyBuffers) (q : Nat) r output, q < p.steps.length →
      p.runSteps input p.start 0 (p.steps.take q) = .ok r →
        p.heldBytes (r.write q output) ≤ p.layout.footprint ∧
        ∀ limit, config.memoryLimit = some limit → p.heldBytes (r.write q output) ≤ limit := by
  obtain ⟨_, _, _, _, -, -, -, -, -, -, -, hfootprint, hlimit⟩ := build_eq_ok h
  obtain ⟨order, hp⟩ := schedules_of_build (wellFormed_after registry source count calls) h
  have hs := hp.scheduled
  refine ⟨fun k s hk => hp.sizeOf_node hk, ?_⟩
  intro input q r output hq hrun
  obtain ⟨outs, rfl, hr⟩ := hs.reached_of_take hq.le hrun
  have hbytes := hs.heldBytes_le fun i hi => (hr.write_iff (i := i) hs hq output).1 hi
  rw [← hfootprint] at hbytes
  exact ⟨hbytes, fun limit hl => Nat.le_trans hbytes (hlimit limit hl)⟩

/-- Three differences in a row run in the memory of two. -/
theorem heldBytes_threeInARow : ∃ p,
    threeInARow.build { memoryLimit := some 256 } 1 (fun _ _ => .ok ()) = .ok p ∧
      ∀ (input : AnyBuffers) (q : Nat) r output, q < p.steps.length →
        p.runSteps input p.start 0 (p.steps.take q) = .ok r →
          p.heldBytes (r.write q output) ≤ 256 := by
  have hrun : (threeInARow.build { memoryLimit := some 256 } 1
      (fun _ _ => .ok ())).toOption.isSome = true := by cbv
  cases hp : threeInARow.build { memoryLimit := some 256 } 1 (fun _ _ => .ok ()) with
  | error e => simp [hp, Except.toOption] at hrun
  | ok p =>
    refine ⟨p, rfl, ?_⟩
    intro input q r output hq hsteps
    exact ((heldBytes_le_footprint _ _ _ _ _ _ _ p hp).2 input q r output hq hsteps).2 256 rfl

end Builder

end Timbre
