import Timbre.Proofs.Kernel.Preparing
import Timbre.Proofs.Memory.Solvable
import Timbre.Proofs.Pipeline.Consistency
import Timbre.Proofs.Pipeline.Sharing

/-! # Building a pipeline

Nothing goes wrong between a configuration that makes sense and a pipeline but memory: the walk gets
through, the tree that it draws has an order that makes sense and items of its own, first fit finds
addresses, and every stage can be prepared because it has accepted what its parent writes. Main
statement: `build_ok_iff_fits`.
-/
namespace Timbre

theorem Config.validate_eq_error {config : Config} {e : Error} (h : config.validate = .error e) :
    ∃ problem, e = .invalidConfig problem := by
  unfold validate at h
  split at h
  · cases h
    exact ⟨_, rfl⟩
  · split at h
    · cases h
      exact ⟨_, rfl⟩
    · split at h
      · cases h
        exact ⟨_, rfl⟩
      · cases h

namespace Builder

variable {b : Builder} {tree tree' : Memory.Tree} {order order' : List (Nat × Nat)}
  {queue : List Pending}

def bytesAt (b : Builder) (i : Nat) : Nat := (b.stages[i]?.map (blockSize ·.transform)).getD 0

def bytes (b : Builder) : Nat := (b.stages.toList.map (blockSize ·.transform)).sum

section Draw

theorem block?_walk {steps i : Nat} (hw : b.walk steps queue tree order = .ok (tree', order'))
    (hi : i < tree.size) : tree'.block? i = tree.block? i := by
  induction steps generalizing queue tree order with
  | zero =>
    cases hw
    rfl
  | succ steps ih =>
    cases queue with
    | nil =>
      cases hw
      rfl
    | cons x queue =>
      rw [walk] at hw
      split at hw
      · cases hw
      · split at hw
        · cases hw
        · rename_i t node hnode
          obtain ⟨rfl, hd⟩ := addNode_eq_ok hnode
          have hlt : i < t.size := by
            rw [hd.size_eq]
            omega
          rw [ih hw hlt, hd.block?_eq, if_neg (Nat.ne_of_lt hi)]

/-- A tree that was drawn: the root takes no memory, and the other nodes are stages. -/
structure Drawn (b : Builder) (tree : Memory.Tree) (order : List (Nat × Nat)) : Prop where
  walk : b.Walk [] tree order
  root : tree.block? 0 = some { size := 0, item := 0 }

theorem drawn_of_breadthFirst (hb : b.WellFormed) (h : b.breadthFirst = .ok (tree, order)) :
    b.Drawn tree order :=
  ⟨walk_of_breadthFirst hb h, block?_walk h Nat.one_pos⟩

namespace Drawn

variable (h : b.Drawn tree order)
include h

theorem ordered : tree.Ordered := h.walk.reachable.linked.ordered h.walk.order_eq

theorem item_eq {i : Nat} {n : Memory.Node} (hn : tree.nodes[i]? = some n) :
    ∃ id, (places order)[i]? = some id ∧ n.item = id.number := by
  have hblock : tree.block? i = some n.toBlock := by rw [Memory.Tree.block?, hn, Option.map_some]
  cases i with
  | zero =>
    rw [h.root] at hblock
    exact ⟨.source, rfl, congrArg Memory.Block.item (Option.some_inj.1 hblock.symm)⟩
  | succ k =>
    have hk : k < order.length := by
      have hlt : k + 1 < tree.size := (Array.getElem?_eq_some_iff.1 hn).1
      have := h.walk.size_eq
      omega
    have hx := List.getElem?_eq_getElem hk
    obtain ⟨-, e, q, -, hblock', -⟩ := h.walk.node k _ hx
    rw [hblock'] at hblock
    refine ⟨.stage order[k].1, ?_, congrArg Memory.Block.item (Option.some_inj.1 hblock.symm)⟩
    rw [places, List.getElem?_cons_succ, List.getElem?_map, hx, Option.map_some]

theorem itemsDistinct : tree.ItemsDistinct := by
  refine Memory.Tree.itemsDistinct_iff.2 fun i j n m hn hm he => ?_
  obtain ⟨id, hi, hid⟩ := h.item_eq hn
  obtain ⟨id', hj, hid'⟩ := h.item_eq hm
  have hsame : id = id' := by
    rw [← StageId.ofNumber_number id, ← StageId.ofNumber_number id', ← hid, ← hid', he]
  have hlt := (List.getElem?_eq_some_iff.1 hi).1
  exact (List.getElem?_inj hlt (nodup_places h.walk.nodup)).1 (hi.trans (hsame ▸ hj.symm))

theorem sizeOf_zero : tree.sizeOf 0 = 0 := by
  obtain ⟨n, hn, hblock⟩ := Option.map_eq_some_iff.1 h.root
  rw [Memory.Tree.sizeOf_of_getElem? hn]
  exact congrArg Memory.Block.size hblock

theorem sizeOf_succ {k : Nat} {x : Nat × Nat} (hx : order[k]? = some x) :
    tree.sizeOf (k + 1) = b.bytesAt x.1 := by
  obtain ⟨-, e, q, he, hblock, -⟩ := h.walk.node k x hx
  obtain ⟨n, hn, hblock⟩ := Option.map_eq_some_iff.1 hblock
  rw [Memory.Tree.sizeOf_of_getElem? hn, bytesAt, he]
  exact congrArg Memory.Block.size hblock

theorem unshared_eq (hb : b.WellFormed) : tree.unshared = b.bytes := by
  have hsizes : order.map (fun x => b.bytesAt x.1) =
      (List.range order.length).map fun k => tree.sizeOf (k + 1) :=
    map_eq_map_range fun k x hx => h.sizeOf_succ hx
  have hstages : b.stages.toList.map (blockSize ·.transform) =
      (List.range b.size).map b.bytesAt :=
    map_toList_eq_map_range fun i e he => by rw [bytesAt, he]; rfl
  calc tree.unshared
      = ((List.range tree.size).map tree.sizeOf).sum :=
        (Memory.Tree.bytes_eq_unshared (.refl _)).symm
    _ = tree.sizeOf 0 + ((List.range order.length).map fun k => tree.sizeOf (k + 1)).sum := by
      rw [h.walk.size_eq, List.range_succ_eq_map, List.map_cons, List.sum_cons, List.map_map]
      rfl
    _ = ((order.map (·.1)).map b.bytesAt).sum := by
      rw [h.sizeOf_zero, Nat.zero_add, ← hsizes, List.map_map]
      rfl
    _ = b.bytes := by
      rw [((h.walk.perm hb).map b.bytesAt).sum_eq, ← hstages, bytes]

theorem exists_footprint (hb : b.WellFormed) (htotal : b.bytes ≤ maxSize) : ∃ footprint,
    (Memory.solve .firstFit none tree).answer = .ok ⟨footprint, b.bytes, "first-fit"⟩ := by
  have ht := h.walk.reachable.linked
  have htotal' : tree.unshared ≤ maxSize := h.unshared_eq hb ▸ htotal
  rw [Memory.Tree.solve_of_packed ht h.ordered h.itemsDistinct htotal' .firstFit rfl
    (Memory.FirstFit.run_packed ht h.ordered), h.unshared_eq hb]
  exact ⟨_, rfl⟩

end Drawn

end Draw

section Steps

variable (hb : b.WellFormed) (h : b.Walk [] tree order)
include hb h

theorem Walk.exists_inputOf {i : Nat} {e : Entry} (he : b.stages[i]? = some e) :
    ∃ input, inputOf order e.parent = .ok input := by
  have hle := hb.parent_le i e he
  cases hp : e.parent with
  | source => exact ⟨none, rfl⟩
  | stage j =>
    rw [hp] at hle
    have hi : i < b.size := (Array.getElem?_eq_some_iff.1 he).1
    have hj : j ∈ order.map (·.1) :=
      (h.perm hb).mem_iff.2 (List.mem_range.2 (Nat.lt_trans hle hi))
    obtain ⟨x, hx, rfl⟩ := List.mem_map.1 hj
    obtain ⟨position, hposition⟩ : ∃ position, order.findIdx? (·.1 == x.1) = some position := by
      rw [← Option.isSome_iff_exists, List.findIdx?_isSome, List.any_eq_true]
      exact ⟨x, hx, beq_self_eq_true _⟩
    unfold inputOf
    dsimp only
    rw [hposition]
    exact ⟨_, rfl⟩

variable (hr : ∀ k ∈ b.registry.kernels, k.Prepares)
include hr

theorem Walk.exists_makeStep {x : Nat × Nat} (hx : x ∈ order) (workers : Nat) :
    ∃ s, b.makeStep workers order x = .ok s := by
  have hlt : x.1 < b.stages.size :=
    List.mem_range.1 ((h.perm hb).mem_iff.1 (List.mem_map_of_mem hx))
  have he := Array.getElem?_eq_getElem hlt
  obtain ⟨fresh, format, count, n, warnings, hcreate, -, haccept⟩ := hb.accepts x.1 _ he
  obtain ⟨t, ht⟩ := Transform.exists_prepare hr hcreate haccept workers
  obtain ⟨input, hinput⟩ := h.exists_inputOf hb he
  unfold makeStep
  rw [entry_eq_ok_iff.2 he]
  dsimp only
  rw [ht]
  dsimp only
  rw [hinput]
  exact ⟨_, rfl⟩

theorem Walk.exists_makeSteps (workers : Nat) :
    ∃ steps, b.makeSteps workers order order = .ok steps := by
  have hall (xs : List (Nat × Nat)) (hxs : xs ⊆ order) :
      ∃ steps, b.makeSteps workers order xs = .ok steps := by
    induction xs with
    | nil => exact ⟨[], rfl⟩
    | cons x xs ih =>
      obtain ⟨s, hs⟩ := h.exists_makeStep hb hr (hxs List.mem_cons_self) workers
      obtain ⟨steps, hsteps⟩ := ih (List.subset_of_cons_subset hxs)
      rw [makeSteps, hs]
      dsimp only
      rw [hsteps]
      exact ⟨_, rfl⟩
  exact hall order (List.Subset.refl order)

end Steps

section Build

variable {config : Config} {available : Nat} {write : (path text : String) → Except Error Unit}

/-- After a tree that is solved, only the file and the steps are left to make. -/
theorem exists_build (hvalid : config.validate = .ok ())
    (hwalk : b.breadthFirst = .ok (tree, order)) {layout : Memory.Layout}
    (hsolve : (Memory.solve .firstFit config.memoryLimit tree).answer = .ok layout)
    (hwrite : ∀ path text, config.dumpGraph = some path → write path text = .ok ())
    (hsteps : ∃ steps, b.makeSteps (config.workers available) order order = .ok steps) :
    ∃ p, b.build config available write = .ok p := by
  obtain ⟨steps, hsteps⟩ := hsteps
  have hdump (text : String) : config.dumpGraph.elim (.ok ()) (write · text) = .ok () := by
    cases hpath : config.dumpGraph with
    | none => rfl
    | some path => exact hwrite path text hpath
  unfold build
  rw [hvalid]
  dsimp only
  rw [hwalk]
  dsimp only
  rw [hsolve]
  dsimp only
  rw [hdump]
  dsimp only
  rw [hsteps]
  exact ⟨_, rfl⟩

theorem build_of_unsolved (hvalid : config.validate = .ok ())
    (hwalk : b.breadthFirst = .ok (tree, order)) {e : Error}
    (hsolve : (Memory.solve .firstFit config.memoryLimit tree).answer = .error e) :
    b.build config available write = .error e := by
  unfold build
  rw [hvalid]
  dsimp only
  rw [hwalk]
  dsimp only
  rw [hsolve]

theorem build_of_invalid {e : Error} (h : config.validate = .error e) :
    b.build config available write = .error e := by
  unfold build
  rw [h]

/-- The three ways in which building ends, for a builder of which first fit knows the footprint. -/
inductive Ending (config : Config) (footprint : Nat) : Except Error Pipeline → Prop
  | invalid {e : Error} : config.validate = .error e → Ending config footprint (.error e)
  | exhausted {limit : Nat} : config.validate = .ok () → config.memoryLimit = some limit →
    limit < footprint → Ending config footprint (.error (.allocationExhausted footprint limit))
  | fits {p : Pipeline} : config.validate = .ok () →
    (∀ limit, config.memoryLimit = some limit → footprint ≤ limit) →
      Ending config footprint (.ok p)

theorem WellFormed.ending_build (hb : b.WellFormed) (hr : ∀ k ∈ b.registry.kernels, k.Prepares)
    (hwalk : b.breadthFirst = .ok (tree, order)) {layout : Memory.Layout}
    (hsolve : (Memory.solve .firstFit none tree).answer = .ok layout)
    (hwrite : ∀ path text, config.dumpGraph = some path → write path text = .ok ()) :
    Ending config layout.footprint (b.build config available write) := by
  cases hvalid : config.validate with
  | error e =>
    rw [build_of_invalid hvalid]
    exact .invalid hvalid
  | ok u =>
    have hsteps := (walk_of_breadthFirst hb hwalk).exists_makeSteps hb hr (config.workers available)
    cases hlimit : config.memoryLimit with
    | none =>
      obtain ⟨p, hp⟩ := exists_build hvalid hwalk (hlimit ▸ hsolve) hwrite hsteps
      rw [hp]
      exact .fits hvalid fun limit h => by rw [hlimit] at h; cases h
    | some limit =>
      have hlimited := Memory.answer_of_limit hsolve limit
      rw [← hlimit] at hlimited
      split at hlimited
      · rename_i hlt
        rw [build_of_unsolved hvalid hwalk hlimited]
        exact .exhausted hvalid hlimit hlt
      · rename_i hle
        obtain ⟨p, hp⟩ := exists_build hvalid hwalk hlimited hwrite hsteps
        rw [hp]
        refine .fits hvalid fun limit' h => ?_
        rw [hlimit] at h
        cases h
        exact Nat.not_lt.1 hle

end Build

section Fits

variable (source : AnyFormat) (count : Nat) (calls : List Call) (config : Config) (available : Nat)
  (write : (path text : String) → Except Error Unit)

/-- Whatever calls a builder has seen, it builds a pipeline exactly if the configuration makes sense
and what first fit takes is within the limit. Otherwise the error is that of the configuration, or
else that the memory is exhausted, and there is no third. -/
theorem build_ok_iff_fits
    (hwrite : ∀ path text, config.dumpGraph = some path → write path text = .ok ())
    (htotal : ((fresh .builtin source count).after calls).bytes ≤ maxSize) :
    ∃ tree order footprint,
      ((fresh .builtin source count).after calls).breadthFirst = .ok (tree, order) ∧
      (Memory.solve .firstFit none tree).answer =
        .ok ⟨footprint, ((fresh .builtin source count).after calls).bytes, "first-fit"⟩ ∧
      ((∃ p, ((fresh .builtin source count).after calls).build config available write = .ok p) ↔
        config.validate = .ok () ∧
          ∀ limit, config.memoryLimit = some limit → footprint ≤ limit) ∧
      (∀ e, ((fresh .builtin source count).after calls).build config available write = .error e ↔
        config.validate = .error e ∨ config.validate = .ok () ∧ ∃ limit,
          config.memoryLimit = some limit ∧ limit < footprint ∧
            e = .allocationExhausted footprint limit) ∧
      ∀ e, config.validate = .error e → ∃ problem, e = .invalidConfig problem := by
  have hb := wellFormed_after .builtin source count calls
  have hkeeps := (extends_after (fresh .builtin source count) calls).keeps
  generalize (fresh .builtin source count).after calls = b at hb hkeeps htotal ⊢
  have hr : ∀ k ∈ b.registry.kernels, k.Prepares := fun k hk =>
    Kernel.prepares_of_mem_builtin (by rwa [hkeeps.registry] at hk)
  obtain ⟨tree, order, hwalk⟩ := exists_breadthFirst hb
  obtain ⟨footprint, hsolve⟩ := (drawn_of_breadthFirst hb hwalk).exists_footprint hb htotal
  have hending : Ending config footprint (b.build config available write) :=
    hb.ending_build hr hwalk hsolve hwrite
  refine ⟨tree, order, footprint, hwalk, hsolve, ?_, ?_, fun e => Config.validate_eq_error⟩
  · generalize b.build config available write = answer at hending
    cases hending with
    | invalid hvalid => simp [hvalid]
    | exhausted hvalid hlimit hlt =>
      refine ⟨fun ⟨p, hp⟩ => (by cases hp), fun h => ?_⟩
      exact absurd hlt (Nat.not_lt.2 (h.2 _ hlimit))
    | fits hvalid hwithin => exact ⟨fun _ => ⟨hvalid, hwithin⟩, fun _ => ⟨_, rfl⟩⟩
  · intro e
    generalize b.build config available write = answer at hending
    cases hending with
    | invalid hvalid => simp [hvalid]
    | exhausted hvalid hlimit hlt =>
      simp [hvalid, hlimit, hlt, eq_comm]
    | fits hvalid hwithin =>
      refine ⟨fun h => (by cases h), ?_⟩
      rintro (h | ⟨-, limit, hlimit, hlt, -⟩)
      · rw [hvalid] at h
        cases h
      · exact absurd hlt (Nat.not_lt.2 (hwithin limit hlimit))

end Fits

theorem footprint_threeInARow : ∃ tree order, threeInARow.breadthFirst = .ok (tree, order) ∧
    (Memory.solve .firstFit none tree).answer = .ok ⟨256, 384, "first-fit"⟩ := by
  have hrun : threeInARow.breadthFirst.toOption.map (fun x =>
      (Memory.solve .firstFit none x.1).answer.toOption) = some (some ⟨256, 384, "first-fit"⟩) := by
    cbv
  have hb : threeInARow.WellFormed := wellFormed_after _ _ _ _
  obtain ⟨tree, order, hwalk⟩ := exists_breadthFirst hb
  refine ⟨tree, order, hwalk, ?_⟩
  cases hsolve : (Memory.solve .firstFit none tree).answer with
  | error e => simp [hwalk, hsolve, Except.toOption] at hrun
  | ok layout =>
    simp only [hwalk, hsolve, Except.toOption, Option.map_some, Option.some.injEq] at hrun
    rw [hrun]

/-- They fit if the limit is what they take, and not if it is one byte less. -/
theorem build_threeInARow :
    (∃ p, threeInARow.build { memoryLimit := some 256 } 1 (fun _ _ => .ok ()) = .ok p) ∧
      threeInARow.build { memoryLimit := some 255 } 1 (fun _ _ => .ok ()) =
        .error (.allocationExhausted 256 255) := by
  obtain ⟨tree, order, hwalk, hsolve⟩ := footprint_threeInARow
  have h (limit : Nat) := build_ok_iff_fits ⟨Signal, ⟨(4 : Nat), some .wideband⟩⟩ 2
    [.addFeature "third" (List.replicate 3 ⟨"Diff", .empty⟩)] { memoryLimit := some limit } 1
    (fun _ _ => .ok ()) (fun _ _ _ => rfl) (by cbv)
  constructor
  · obtain ⟨tree', order', footprint, hwalk', hsolve', hok, -⟩ := h 256
    cases hwalk.symm.trans hwalk'
    obtain rfl : 256 = footprint := congrArg Memory.Layout.footprint
      (Except.ok.inj (hsolve.symm.trans hsolve'))
    exact hok.2 ⟨rfl, fun limit hlimit => by cases hlimit; exact Nat.le_refl _⟩
  · obtain ⟨tree', order', footprint, hwalk', hsolve', -, herror, -⟩ := h 255
    cases hwalk.symm.trans hwalk'
    obtain rfl : 256 = footprint := congrArg Memory.Layout.footprint
      (Except.ok.inj (hsolve.symm.trans hsolve'))
    exact (herror _).2 (.inr ⟨rfl, 255, rfl, by decide, rfl⟩)

/-- A limit of no bytes is exceeded, but the error is that it is no limit. -/
theorem build_threeInARow_of_no_memory :
    ∃ tree order footprint, threeInARow.breadthFirst = .ok (tree, order) ∧
      (Memory.solve .firstFit none tree).answer = .ok ⟨footprint, 384, "first-fit"⟩ ∧
      0 < footprint ∧ threeInARow.build { memoryLimit := some 0 } 1 (fun _ _ => .ok ()) =
        .error (.invalidConfig .noMemory) := by
  obtain ⟨tree, order, hwalk, hsolve⟩ := footprint_threeInARow
  exact ⟨tree, order, 256, hwalk, hsolve, by decide, build_of_invalid rfl⟩

end Builder

end Timbre
