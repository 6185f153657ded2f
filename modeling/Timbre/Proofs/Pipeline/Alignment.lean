import Timbre.Proofs.Memory.Alignment
import Timbre.Proofs.Pipeline.Budget
import Timbre.Proofs.Pipeline.Building

/-! # Outputs in memory

The node of a stage has the padded size of an element as often as the stage writes one, which is a
multiple of the alignment, and so is every address that first fit finds for such nodes. The elements
that a stage creates, each a padded size behind the one before, end within its node, and the node
ends within the footprint. Main statement: `aligned_of_build`.
-/
namespace Timbre

/-- The bytes of an element, without padding. -/
def Kind.elementBytes : (k : Kind) → k.Element → Nat
  | .array s, xs => xs.size * s.bytes
  | .single s, _ => s.bytes
  | .identity, _ => 0

namespace Format

variable {k : Kind}

@[simp] theorem elementBytes_newElement (f : Format k) : k.elementBytes f.newElement = f.bytes := by
  cases k <;> simp [Kind.elementBytes, newElement, bytes]

theorem bytes_le_paddedBytes (f : Format k) : f.bytes ≤ f.paddedBytes := le_aligned f.bytes

theorem alignment_dvd_paddedBytes (f : Format k) : alignment ∣ f.paddedBytes :=
  Nat.dvd_of_mod_eq_zero (aligned_mod f.bytes)

/-- Any element but the last leaves room for those behind it. -/
theorem stride_add_bytes_le (f : Format k) {i count : Nat} (h : i < count) :
    i * f.paddedBytes + f.bytes ≤ f.paddedBytes * count :=
  calc i * f.paddedBytes + f.bytes
      ≤ i * f.paddedBytes + f.paddedBytes := Nat.add_le_add_left f.bytes_le_paddedBytes _
    _ = (i + 1) * f.paddedBytes := (Nat.succ_mul i _).symm
    _ ≤ count * f.paddedBytes := Nat.mul_le_mul_right _ h
    _ = f.paddedBytes * count := Nat.mul_comm _ _

end Format

namespace Transform

variable (t : Transform)

theorem count_freshOutputs : t.freshOutputs.count = t.outputCount := by
  simp [freshOutputs, AnyBuffers.count, Stage.freshOutputs, Buffers.fresh, Buffers.ofElements,
    Buffers.count, outputCount]

theorem freshOutputs_eq_some {i : Nat} {x : t.kernel.output.Element}
    (h : t.stage.freshOutputs.elements[i]? = some x) :
    i < t.outputCount ∧ x = t.stage.output.newElement := by
  simp only [Stage.freshOutputs, Buffers.fresh, Buffers.ofElements,
    Array.getElem?_replicate] at h
  split at h
  · rename_i hi
    cases h
    exact ⟨hi, rfl⟩
  · cases h

end Transform

namespace Pipeline

/-- The memory at a node, from an address on, is the one of a step, and what the step creates fits
into it: each element starts a padded size behind the one before. -/
structure Houses (p : Pipeline) (s : Step) (n : Memory.Node) (address : Nat) : Prop where
  node_eq : p.tree.nodes[s.node]? = some n
  address_eq : n.address = some address
  aligned : alignment ∣ address
  size_eq : n.size = s.transform.outputFormat.format.paddedBytes * s.transform.outputCount
  stop_le : address + n.size ≤ p.layout.footprint
  count_eq : s.transform.freshOutputs.count = s.transform.outputCount
  element : ∀ (i : Nat) x, s.transform.freshOutputs.buffers.elements[i]? = some x →
    s.transform.freshOutputs.kind.elementBytes x = s.transform.outputFormat.format.bytes ∧
      address + i * s.transform.outputFormat.format.paddedBytes +
        s.transform.freshOutputs.kind.elementBytes x ≤ address + n.size

end Pipeline

namespace Builder

variable {b : Builder} {p : Pipeline} {tree : Memory.Tree} {order : List (Nat × Nat)}

theorem solved_of_build {config : Config} {available : Nat}
    {write : (path text : String) → Except Error Unit}
    (h : b.build config available write = .ok p) :
    ∃ tree order, b.breadthFirst = .ok (tree, order) ∧
      (Memory.solve .firstFit config.memoryLimit tree).answer = .ok p.layout ∧
        (Memory.solve .firstFit config.memoryLimit tree).state = p.tree := by
  unfold build at h
  split at h
  · cases h
  · split at h
    · cases h
    · rename_i tree order hwalk
      dsimp only at h
      split at h
      · cases h
      · rename_i layout hsolve
        split at h
        · cases h
        · split at h
          · cases h
          · cases h
            exact ⟨tree, order, hwalk, hsolve, rfl⟩

theorem alignment_dvd_bytesAt (b : Builder) (i : Nat) : alignment ∣ b.bytesAt i := by
  rw [bytesAt]
  cases b.stages[i]? with
  | none => exact Nat.dvd_zero _
  | some e => exact Nat.dvd_mul_right_of_dvd (Format.alignment_dvd_paddedBytes _) _

theorem Drawn.alignment_dvd_size (h : b.Drawn tree order) : ∀ n ∈ tree.nodes,
    alignment ∣ n.size := by
  intro n hn
  obtain ⟨i, hi⟩ := Array.getElem?_of_mem hn
  rw [← Memory.Tree.sizeOf_of_getElem? hi]
  cases i with
  | zero =>
    rw [h.sizeOf_zero]
    exact Nat.dvd_zero _
  | succ k =>
    have hlt : k < order.length := by
      have hsize : k + 1 < tree.size := (Array.getElem?_eq_some_iff.1 hi).1
      have := h.walk.size_eq
      omega
    rw [h.sizeOf_succ (List.getElem?_eq_getElem hlt)]
    exact b.alignment_dvd_bytesAt _

section Build

variable {config : Config} {available : Nat} {write : (path text : String) → Except Error Unit}
  (hb : b.WellFormed) (h : b.build config available write = .ok p)
include hb h

theorem alignment_dvd_footprint : alignment ∣ p.layout.footprint := by
  obtain ⟨tree, order, hwalk, hsolve, -⟩ := solved_of_build h
  have hdrawn := drawn_of_breadthFirst hb hwalk
  exact Memory.dvd_footprint_of_solve hdrawn.walk.reachable.linked hdrawn.alignment_dvd_size
    hsolve

theorem address_add_size_le {i address : Nat} {n : Memory.Node} (hn : p.tree.nodes[i]? = some n)
    (haddress : n.address = some address) (hzero : n.size = 0 → address = 0) :
    address + n.size ≤ p.layout.footprint := by
  obtain ⟨order, hp⟩ := schedules_of_build hb h
  obtain ⟨_, _, _, _, -, -, -, -, -, -, -, hfootprint, -⟩ := build_eq_ok h
  have hvalid := (Memory.Tree.validate_eq_true_iff hp.scheduled.linked).1 hp.scheduled.valid
  have hsize := Memory.Tree.sizeOf_of_getElem? hn
  rcases Nat.eq_zero_or_pos n.size with hz | hpos
  · rw [hz, hzero hz]
    exact Nat.zero_le _
  · have hle := hvalid.stop_le_footprint (hsize ▸ hpos)
    rw [Memory.Tree.startOf_of_address hn haddress, hsize] at hle
    exact hfootprint ▸ hle

theorem exists_houses {k : Nat} {s : Step} (hs : p.steps[k]? = some s) :
    ∃ n address, p.Houses s n address := by
  obtain ⟨order, hp⟩ := schedules_of_build hb h
  obtain ⟨tree, _, hwalk, hsolve, hstate⟩ := solved_of_build h
  have hdrawn := drawn_of_breadthFirst hb hwalk
  have hlt : s.node < p.tree.size := by
    have hk := (List.getElem?_eq_some_iff.1 hs).1
    rw [hp.scheduled.node_eq k s hs, hp.scheduled.size_eq]
    omega
  obtain ⟨n, hn⟩ : ∃ n, p.tree.nodes[s.node]? = some n := ⟨_, Array.getElem?_eq_getElem hlt⟩
  obtain ⟨address, haddress, hdvd, hzero⟩ := Memory.address_of_solve
    hdrawn.walk.reachable.linked hdrawn.alignment_dvd_size hsolve (hstate ▸ hn)
  have hsize := (Memory.Tree.sizeOf_of_getElem? hn).symm.trans (hp.sizeOf_node hs)
  refine ⟨n, address, hn, haddress, hdvd, hsize, address_add_size_le hb h hn haddress hzero,
    s.transform.count_freshOutputs, fun i x hx => ?_⟩
  obtain ⟨hi, rfl⟩ := s.transform.freshOutputs_eq_some hx
  have hbytes : s.transform.freshOutputs.kind.elementBytes s.transform.stage.output.newElement =
      s.transform.outputFormat.format.bytes := Format.elementBytes_newElement _
  have hstride := Format.stride_add_bytes_le s.transform.outputFormat.format hi
  refine ⟨hbytes, ?_⟩
  rw [hbytes, hsize]
  omega

end Build

/-- Every stage of a pipeline that was built has an aligned address, a node of the padded bytes of
its elements, and room there for all that it creates, below an aligned footprint. That addresses are
aligned is due to first fit: what divides all sizes of a tree divides all addresses. -/
theorem aligned_of_build (registry : Registry) (source : AnyFormat) (count : Nat)
    (calls : List Call) (config : Config) (available : Nat)
    (write : (path text : String) → Except Error Unit) (p : Pipeline)
    (h : ((fresh registry source count).after calls).build config available write = .ok p) :
    alignment ∣ p.layout.footprint ∧
      (∀ (k : Nat) s, p.steps[k]? = some s → ∃ n address, p.Houses s n address) ∧
      ∀ (a : Nat) (t : Memory.Tree) (l : Memory.Liveness), (∀ n ∈ t.nodes, a ∣ n.size) →
        ∀ address ∈ Memory.Strategy.firstFit.place t l, a ∣ address := by
  have hb := wellFormed_after registry source count calls
  exact ⟨alignment_dvd_footprint hb h, fun k s hs => exists_houses hb h hs,
    fun a t l hsizes address => Memory.Strategy.dvd_of_mem_place hsizes l⟩

/-- Three differences in a row, the last one written where the first one was, and a tree of four
bytes a node. -/
theorem aligned_threeInARow :
    (∃ p s n address, threeInARow.build {} 1 (fun _ _ => .ok ()) = .ok p ∧
      alignment ∣ p.layout.footprint ∧ p.steps[2]? = some s ∧ p.Houses s n address) ∧
    ∀ address ∈ Memory.Strategy.firstFit.place (.threeInARow 0) ⟨(Memory.Tree.threeInARow 0).spans⟩,
      4 ∣ address := by
  have hrun : ((threeInARow.build {} 1 (fun _ _ => .ok ())).toOption.bind
      (·.steps[2]?)).isSome = true := by cbv
  cases hp : threeInARow.build {} 1 (fun _ _ => .ok ()) with
  | error e => simp [hp, Except.toOption] at hrun
  | ok p =>
    rw [hp] at hrun
    obtain ⟨s, hs⟩ := Option.isSome_iff_exists.1 hrun
    obtain ⟨hfootprint, hhouses, hdvd⟩ := aligned_of_build _ _ _ _ _ _ _ p hp
    obtain ⟨n, address, hn⟩ := hhouses 2 s hs
    exact ⟨⟨p, s, n, address, rfl, hfootprint, hs, hn⟩, hdvd 4 _ _ (by decide)⟩

end Builder

end Timbre
