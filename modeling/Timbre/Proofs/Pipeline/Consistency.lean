import Mathlib.Algebra.Module.Submodule.Lattice
import Mathlib.Data.List.Permutation
import Timbre.Proofs.Kernel.Rates
import Timbre.Proofs.Pipeline.Results

/-! # Consistent builders

Whatever calls a builder has seen, and whether they failed or not, its two records of who reads what
agree, names are given once, and every stage is what its link makes of what its parent writes now.
So the breadth-first walk always gets through: it takes every stage once, parents before their
children and nearer stages before farther ones, and the steps of a pipeline read from where the walk
has put their parents. Main statement: `consistent_after`. The first two imports hold the equations
of `≤` and `Prod.snd` with which `cbv` evaluates a closed pipeline.
-/
namespace Timbre

namespace Memory.Tree

variable {t : Tree}

theorem exists_addChild {parent : Nat} (h : parent < t.size) (size item : Nat) :
    ∃ t', t.addChild parent size item = .ok (t', t.size) := by
  have hparent : t.nodes[parent]? = some t.nodes[parent] := Array.getElem?_eq_getElem h
  unfold addChild
  rw [hparent]
  exact ⟨_, rfl⟩

theorem exists_edit {i : Nat} (h : i < t.size) (f : Block → Block) : ∃ t', t.edit i f = .ok t' := by
  have hi : t.nodes[i]? = some t.nodes[i] := Array.getElem?_eq_getElem h
  unfold edit
  rw [hi]
  exact ⟨_, rfl⟩

end Memory.Tree

namespace Builder

variable {b : Builder} {tree : Memory.Tree} {order : List (Nat × Nat)} {queue : List Pending}

theorem exists_addNode {x : Pending} (e : Entry) (h : x.parentNode < tree.size) :
    ∃ tree' node, addNode tree x e = .ok (tree', node) := by
  obtain ⟨t, ht⟩ := Memory.Tree.exists_addChild h (blockSize e.transform) (x.stage + 1)
  have hsize := Memory.Tree.size_addChild ht
  have hlt : tree.size < t.size := by omega
  obtain ⟨t', ht'⟩ := Memory.Tree.exists_edit hlt fun m =>
    { m with retained := !e.features.isEmpty, label := some e.link.name }
  refine ⟨t', tree.size, ?_⟩
  unfold addNode
  rw [ht]
  dsimp only
  rw [ht']
  rfl

theorem getElem?_places_eq_stage {q j : Nat} (h : (places order)[q]? = some (.stage j)) :
    ∃ m x, q = m + 1 ∧ order[m]? = some x ∧ x.1 = j := by
  cases q with
  | zero =>
    rw [places, List.getElem?_cons_zero] at h
    cases h
  | succ m =>
    rw [places, List.getElem?_cons_succ, List.getElem?_map] at h
    obtain ⟨x, hx, hj⟩ := Option.map_eq_some_iff.1 h
    exact ⟨m, x, rfl, hx, StageId.stage.inj hj⟩

theorem getElem?_places_eq_source {q : Nat} (h : (places order)[q]? = some .source) : q = 0 := by
  cases q with
  | zero => rfl
  | succ m =>
    rw [places, List.getElem?_cons_succ, List.getElem?_map] at h
    obtain ⟨x, -, hx⟩ := Option.map_eq_some_iff.1 h
    cases hx

def AtDepth (b : Builder) (id : StageId) (depth : Nat) : Prop :=
  ∃ links, b.Path id links ∧ links.length = depth

theorem atDepth_source {depth : Nat} (h : b.AtDepth .source depth) : depth = 0 := by
  obtain ⟨links, hpath, rfl⟩ := h
  cases hpath
  rfl

theorem AtDepth.parent {i depth : Nat} {e : Entry} (h : b.AtDepth (.stage i) depth)
    (he : b.stages[i]? = some e) : ∃ d, depth = d + 1 ∧ b.AtDepth e.parent d := by
  obtain ⟨links, hpath, rfl⟩ := h
  cases hpath with
  | stage he' hparent =>
    rw [he] at he'
    cases he'
    exact ⟨_, List.length_append, _, hparent, rfl⟩

namespace Walk

/-- The walk finds every stage that is pending, and the node of its parent. -/
theorem exists_walk (hb : b.WellFormed) (h : b.Walk queue tree order) (steps : Nat) :
    ∃ tree' order', b.walk steps queue tree order = .ok (tree', order') := by
  induction steps generalizing queue tree order with
  | zero => exact ⟨tree, order, rfl⟩
  | succ steps ih =>
    cases queue with
    | nil => exact ⟨tree, order, rfl⟩
    | cons x queue =>
      have hlt : x.stage < b.stages.size := h.lt_size hb (by simp)
      have he := Array.getElem?_eq_getElem hlt
      obtain ⟨id, -, hplace⟩ := h.pending x List.mem_cons_self
      have hnode : x.parentNode < tree.size := by
        have := (List.getElem?_eq_some_iff.1 hplace).1
        rwa [length_places, ← h.size_eq] at this
      obtain ⟨tree', node, hadd⟩ := exists_addNode b.stages[x.stage] hnode
      obtain ⟨rfl, hd⟩ := addNode_eq_ok hadd
      rw [walk, entry_eq_ok_iff.2 he]
      dsimp only
      rw [hadd]
      exact ih (h.step hb he hd)

variable (h : b.Walk [] tree order)
include h

theorem parent_before {k q j : Nat} {e : Entry} (hq : tree.parent? (k + 1) = some q)
    (hplace : (places order)[q]? = some e.parent) (hj : e.parent = .stage j) :
    ∃ m x, m < k ∧ q = m + 1 ∧ order[m]? = some x ∧ x.1 = j := by
  rw [hj] at hplace
  obtain ⟨m, x, rfl, hx, hxj⟩ := getElem?_places_eq_stage hplace
  have hlt := h.reachable.linked.parent?_lt hq
  exact ⟨m, x, by omega, rfl, hx, hxj⟩

/-- Nearer places are taken before farther ones: their parents were, and so on to the source. -/
theorem depth_le {i j : Nat} {id id' : StageId} {c d : Nat} (hij : i ≤ j)
    (hi : (places order)[i]? = some id) (hj : (places order)[j]? = some id')
    (hc : b.AtDepth id c) (hd : b.AtDepth id' d) : c ≤ d := by
  induction j using Nat.strongRecOn generalizing i id id' c d with
  | ind j ih =>
    cases id with
    | source =>
      rw [atDepth_source hc]
      exact Nat.zero_le d
    | stage a =>
      cases id' with
      | source =>
        obtain ⟨m, x, rfl, -⟩ := getElem?_places_eq_stage hi
        have hzero := getElem?_places_eq_source hj
        omega
      | stage a' =>
        obtain ⟨m, x, rfl, hx, rfl⟩ := getElem?_places_eq_stage hi
        obtain ⟨m', x', rfl, hx', rfl⟩ := getElem?_places_eq_stage hj
        obtain ⟨-, e, q, he, -, hq, hplace⟩ := h.node m x hx
        obtain ⟨-, e', q', he', -, hq', hplace'⟩ := h.node m' x' hx'
        obtain ⟨c', rfl, hc'⟩ := hc.parent he
        obtain ⟨d', rfl, hd'⟩ := hd.parent he'
        have hle := h.sorted _ _ _ _ hij hq hq'
        have hlt := h.reachable.linked.parent?_lt hq'
        have := ih q' hlt hle hplace hplace' hc' hd'
        omega

end Walk

theorem exists_breadthFirst (hb : b.WellFormed) :
    ∃ tree order, b.breadthFirst = .ok (tree, order) :=
  (Walk.start hb).exists_walk hb b.size

/-- What holds of a builder at any time. -/
structure Consistent (b : Builder) : Prop where
  /-- A stage is a child of what it names as its parent, and of nothing else. -/
  agree : ∀ (i : Nat) id, i ∈ b.childrenOf id ↔ b.parentOf? i = some id
  /-- All lists of children together hold every stage once. -/
  once : (b.sourceChildren ++ b.stages.toList.flatMap (·.children)).Perm (List.range b.size)
  parent_lt : ∀ (i : Nat) e, b.stages[i]? = some e → e.parent.number < (StageId.stage i).number
  names_nodup : (b.stages.toList.flatMap (·.features)).Nodup
  accepts : ∀ (i : Nat) e, b.stages[i]? = some e → b.Accepts e

theorem flatMap_children (b : Builder) : b.stages.toList.flatMap (·.children) =
    (List.range b.size).flatMap fun i => b.childrenOf (.stage i) := by
  have hlists : b.stages.toList.map (·.children) =
      (List.range b.size).map fun i => b.childrenOf (.stage i) := by
    refine map_toList_eq_map_range fun i e he => ?_
    rw [childrenOf, he]
    rfl
  rw [List.flatMap_def, List.flatMap_def, hlists]

theorem WellFormed.perm_children (hb : b.WellFormed) :
    (b.sourceChildren ++ b.stages.toList.flatMap (·.children)).Perm (List.range b.size) := by
  have hall : b.sourceChildren ++ b.stages.toList.flatMap (·.children) =
      (StageId.source :: (List.range b.size).map .stage).flatMap b.childrenOf := by
    rw [flatMap_children, List.flatMap_cons, List.flatMap_map]
    rfl
  have hplaces : (StageId.source :: (List.range b.size).map .stage).Nodup := by
    rw [List.nodup_cons]
    refine ⟨by simp, List.nodup_range.map fun i j hij => StageId.stage.inj hij⟩
  rw [hall]
  refine (List.perm_ext_iff_of_nodup (nodup_flatMap_childrenOf hb hplaces)
    List.nodup_range).2 fun i => ?_
  rw [List.mem_flatMap, List.mem_range]
  constructor
  · rintro ⟨id, -, hi⟩
    obtain ⟨e, he, -⟩ := Option.map_eq_some_iff.1 (hb.mem_childrenOf.1 hi)
    exact (Array.getElem?_eq_some_iff.1 he).1
  · intro hi
    have he : b.stages[i]? = some b.stages[i] := Array.getElem?_eq_getElem hi
    have hle := hb.parent_le i _ he
    refine ⟨b.stages[i].parent, ?_, hb.mem_childrenOf.2 ?_⟩
    · cases hp : b.stages[i].parent with
      | source => exact List.mem_cons_self
      | stage j =>
        rw [hp] at hle
        have hj : j < b.size := Nat.lt_trans hle hi
        exact List.mem_cons_of_mem _ (List.mem_map_of_mem (List.mem_range.2 hj))
    · rw [parentOf?, he]
      rfl

theorem Named.features_nodup {names : List (String × StageId)} (hn : b.Named names) :
    (b.stages.toList.flatMap (·.features)).Nodup := by
  have hget {i : Nat} (hi : i < b.stages.toList.length) :
      b.stages[i]? = some b.stages.toList[i] := by
    rw [← Array.getElem?_toList, List.getElem?_eq_getElem hi]
  have hmem {i : Nat} {name : String} (hi : i < b.stages.toList.length)
      (h : name ∈ b.stages.toList[i].features) : (name, StageId.stage i) ∈ names := by
    rw [hn.features_eq i _ (hget hi)] at h
    obtain ⟨x, hx, rfl⟩ := List.mem_map.1 h
    obtain ⟨hx, hid⟩ := List.mem_filter.1 hx
    rw [decide_eq_true_iff] at hid
    exact hid ▸ hx
  rw [List.nodup_flatMap]
  constructor
  · intro e he
    obtain ⟨i, hi, rfl⟩ := List.getElem_of_mem he
    rw [hn.features_eq i _ (hget hi)]
    exact hn.nodup.sublist (List.filter_sublist.map _)
  · rw [List.pairwise_iff_getElem]
    intro i j hi hj hij name hni hnj
    have heq := hn.id_unique (hmem hi hni) (hmem hj hnj)
    exact Nat.ne_of_lt hij (StageId.stage.inj heq)

theorem WellFormed.consistent {names : List (String × StageId)} (hb : b.WellFormed)
    (hn : b.Named names) : b.Consistent :=
  ⟨fun _ _ => hb.mem_childrenOf, hb.perm_children,
    fun i e he => Nat.lt_succ_of_le (hb.parent_le i e he), hn.features_nodup, hb.accepts⟩

theorem WellFormed.rate_eq (hb : b.WellFormed) (hr : ∀ k ∈ b.registry.kernels, k.KeepsRate)
    {i : Nat} {e : Entry} (he : b.stages[i]? = some e) :
    e.transform.outputFormat.format.rate = b.source.format.rate := by
  induction i using Nat.strongRecOn generalizing e with
  | ind i ih =>
    obtain ⟨fresh, format, count, n, warnings, hcreate, hout, haccept⟩ := hb.accepts i e he
    obtain ⟨k, hk, settings, rfl⟩ := Registry.create_eq_ok hcreate
    obtain ⟨s, hs, ht⟩ := Transform.accept_eq_ok haccept
    have hrate : e.transform.outputFormat.format.rate = format.format.rate := by
      rw [ht]
      exact Stage.rate_of_accept (hr k hk) hs
    rw [hrate]
    cases hp : e.parent with
    | source =>
      rw [hp] at hout
      cases hout
      rfl
    | stage j =>
      have hle := hb.parent_le i e he
      rw [hp] at hle hout
      have hj : j < b.stages.size := Nat.lt_trans hle (Array.getElem?_eq_some_iff.1 he).1
      have hej := Array.getElem?_eq_getElem hj
      rw [outputOf_stage hej] at hout
      cases hout
      exact ih j hle hej

/-- How a walk goes over the stages of a builder: the entries of the order are a stage and the node
that it has in the tree. -/
structure Visits (b : Builder) (tree : Memory.Tree) (order : List (Nat × Nat)) : Prop where
  once : (order.map (·.1)).Perm (List.range b.size)
  node : ∀ (k : Nat) x, order[k]? = some x → x.2 = k + 1 ∧
    ∃ m, tree.block? (k + 1) = some m ∧ m.item = (StageId.stage x.1).number
  parents_first : ∀ (k : Nat) x e j, order[k]? = some x → b.stages[x.1]? = some e →
    e.parent = .stage j → ∃ m y, m < k ∧ order[m]? = some y ∧ y.1 = j
  deeper : ∀ (j k : Nat) x y c d, j ≤ k → order[j]? = some x → order[k]? = some y →
    b.AtDepth (.stage x.1) c → b.AtDepth (.stage y.1) d → c ≤ d

/-- The step at a position is for the stage that the walk took there, and reads from the step of the
parent of this stage, or from the source. -/
structure StepFor (b : Builder) (order : List (Nat × Nat)) (k : Nat) (s : Step) (e : Entry) :
    Prop where
  name_eq : s.name = e.link.name
  features_eq : s.features = e.features
  node_eq : s.node = k + 1
  from_source : e.parent = .source → s.input = none
  from_stage : ∀ j, e.parent = .stage j →
    ∃ m y, m < k ∧ s.input = some m ∧ order[m]? = some y ∧ y.1 = j

theorem Walk.visits (hb : b.WellFormed) (h : b.Walk [] tree order) : b.Visits tree order := by
  refine ⟨h.perm hb, fun k x hx => ?_, fun k x e j hx he hj => ?_, ?_⟩
  · obtain ⟨hnode, e, q, -, hblock, -⟩ := h.node k x hx
    exact ⟨hnode, _, hblock, rfl⟩
  · obtain ⟨-, e', q, he', -, hq, hplace⟩ := h.node k x hx
    rw [he] at he'
    cases he'
    obtain ⟨m, y, hm, -, hy, hyj⟩ := h.parent_before hq hplace hj
    exact ⟨m, y, hm, hy, hyj⟩
  · intro j k x y c d hjk hx hy hc hd
    have hplace {k : Nat} {x : Nat × Nat} (hx : order[k]? = some x) :
        (places order)[k + 1]? = some (.stage x.1) := by
      rw [places, List.getElem?_cons_succ, List.getElem?_map, hx]
      rfl
    exact h.depth_le (Nat.succ_le_succ hjk) (hplace hx) (hplace hy) hc hd

theorem Walk.stepFor (h : b.Walk [] tree order) {steps : List Step} {workers : Nat}
    (hsteps : b.makeSteps workers order order = .ok steps) {k : Nat} {s : Step}
    (hs : (Step.scheduleReleases steps)[k]? = some s) :
    ∃ x e, order[k]? = some x ∧ b.stages[x.1]? = some e ∧ b.StepFor order k s e := by
  obtain ⟨x, e, hx, he, -, hname, hnode, hfeatures, hplace, hparent, -⟩ := h.step_eq hsteps hs
  refine ⟨x, e, hx, he, hname, hfeatures, hnode, fun hsource => ?_, fun j hj => ?_⟩
  · rw [hsource] at hplace
    exact Step.inputNode_eq_zero_iff.1 (getElem?_places_eq_source hplace)
  · obtain ⟨m, y, hm, hinput, hy, hyj⟩ := h.parent_before hparent hplace hj
    exact ⟨m, y, hm, Step.inputNode_eq_succ_iff.1 hinput, hy, hyj⟩

section After

variable (registry : Registry) (source : AnyFormat) (count : Nat) (calls : List Call)

/-- At any time the records of a builder agree, and every stage has accepted what its parent writes;
the rate is that of the source, unless a kernel from elsewhere changes it. The breadth-first walk
gets through and takes every stage once, parents first and nearer stages first; every pipeline that
is built from the builder has its steps in this order, and each reads from the step of its parent.
-/
theorem consistent_after :
    ((fresh registry source count).after calls).Consistent ∧
    ((∀ k ∈ registry.kernels, k ∈ builtinKernels ∨ k.KeepsRate) →
      ∀ (i : Nat) e, ((fresh registry source count).after calls).stages[i]? = some e →
        e.transform.outputFormat.format.rate = source.format.rate) ∧
    ∃ tree order, ((fresh registry source count).after calls).breadthFirst = .ok (tree, order) ∧
      ((fresh registry source count).after calls).Visits tree order ∧
        ∀ config available write p,
          ((fresh registry source count).after calls).build config available write = .ok p →
            p.steps.length = ((fresh registry source count).after calls).size ∧
              ∀ (k : Nat) s, p.steps[k]? = some s → ∃ x e, order[k]? = some x ∧
                ((fresh registry source count).after calls).stages[x.1]? = some e ∧
                  ((fresh registry source count).after calls).StepFor order k s e := by
  have hb := wellFormed_after registry source count calls
  have hkeeps := (extends_after (fresh registry source count) calls).keeps
  refine ⟨hb.consistent (named_after registry source count calls), ?_, ?_⟩
  · intro hregistry i e he
    have hr : ∀ k ∈ ((fresh registry source count).after calls).registry.kernels, k.KeepsRate := by
      intro k hk
      rw [hkeeps.registry] at hk
      rcases hregistry k hk with hbuiltin | hrate
      · exact Kernel.keepsRate_of_mem_builtin hbuiltin
      · exact hrate
    rw [hb.rate_eq hr he, hkeeps.source]
    rfl
  · obtain ⟨tree, order, hwalk⟩ := exists_breadthFirst hb
    have hw := walk_of_breadthFirst hb hwalk
    refine ⟨tree, order, hwalk, hw.visits hb, ?_⟩
    intro config available write p hp
    obtain ⟨tree', order', steps, addresses, hwalk', hsteps, hpsteps, -⟩ := build_eq_ok hp
    rw [hwalk] at hwalk'
    cases hwalk'
    have hlength := (hw.perm hb).length_eq
    constructor
    · rw [hpsteps, Step.scheduleReleases, List.length_mapIdx, (makeSteps_eq_ok hsteps).1]
      simpa using hlength
    · intro k s hs
      exact hw.stepFor hsteps (hpsteps ▸ hs)

end After

/-- A difference that a second difference and a mean read from, next to a count of the signals. The
second call fails: its name is in use. -/
def branched : Builder :=
  (fresh ⟨builtinKernels ++ [Counting.kernel]⟩ ⟨Signal, ⟨(8 : Nat), some .wideband⟩⟩ 1).after
    [.addFeature "differences" [⟨"Diff", .empty⟩, ⟨"Diff", .empty⟩],
      .addFeature "differences" [⟨"Mean", .empty⟩], .add (.stage 0) ⟨"Mean", .empty⟩,
      .add .source ⟨"Count", .empty⟩, .expose "signals" (.stage 3)]

/-- The stages of two branches are taken level by level. -/
theorem consistent_branched : branched.Consistent ∧
    (∀ (i : Nat) e, branched.stages[i]? = some e →
      e.transform.outputFormat.format.rate = some .wideband) ∧
    ∃ tree, branched.breadthFirst = .ok (tree, [(0, 1), (3, 2), (1, 3), (2, 4)]) ∧
      branched.Visits tree [(0, 1), (3, 2), (1, 3), (2, 4)] ∧
        ∃ p, branched.build {} 1 (fun _ _ => .ok ()) = .ok p ∧ p.steps.length = branched.size ∧
          ∀ (k : Nat) s, p.steps[k]? = some s → ∃ x e,
            [(0, 1), (3, 2), (1, 3), (2, 4)][k]? = some x ∧ branched.stages[x.1]? = some e ∧
              branched.StepFor [(0, 1), (3, 2), (1, 3), (2, 4)] k s e := by
  have hregistry : ∀ k ∈ builtinKernels ++ [Counting.kernel],
      k ∈ builtinKernels ∨ k.KeepsRate := by
    intro k hk
    rcases List.mem_append.1 hk with hk | hk
    · exact .inl hk
    · rw [List.mem_singleton.1 hk]
      exact .inr Kernel.keepsRate_counting
  obtain ⟨hconsistent, hrate, tree, order, hwalk, hvisits, hbuild⟩ :=
    consistent_after ⟨builtinKernels ++ [Counting.kernel]⟩
      ⟨Signal, ⟨(8 : Nat), some .wideband⟩⟩ 1
      [.addFeature "differences" [⟨"Diff", .empty⟩, ⟨"Diff", .empty⟩],
        .addFeature "differences" [⟨"Mean", .empty⟩], .add (.stage 0) ⟨"Mean", .empty⟩,
        .add .source ⟨"Count", .empty⟩, .expose "signals" (.stage 3)]
  have horder : branched.breadthFirst.toOption.map (·.2) =
      some [(0, 1), (3, 2), (1, 3), (2, 4)] := by cbv
  have hwalk : branched.breadthFirst = .ok (tree, order) := hwalk
  rw [hwalk] at horder
  obtain rfl : order = [(0, 1), (3, 2), (1, 3), (2, 4)] := Option.some_inj.1 horder
  refine ⟨hconsistent, hrate hregistry, tree, hwalk, hvisits, ?_⟩
  have hrun : (branched.build {} 1 (fun _ _ => .ok ())).toOption.isSome = true := by cbv
  cases hp : branched.build {} 1 (fun _ _ => .ok ()) with
  | error e => simp [hp, Except.toOption] at hrun
  | ok p =>
    obtain ⟨hlength, hsteps⟩ := hbuild {} 1 (fun _ _ => .ok ()) p hp
    exact ⟨p, rfl, hlength, hsteps⟩

end Builder

end Timbre
