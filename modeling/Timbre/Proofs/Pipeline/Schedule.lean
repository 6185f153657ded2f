import Timbre.Pipeline.Basic
import Timbre.Proofs.Memory.Solving
import Timbre.Proofs.Pipeline.BreadthFirst

/-! # Schedules

What is known of a pipeline that was built: how its steps, its lifetime tree and the stages of the
builder fit together. The step at position `k` has the node `k + 1`, and the node of the step that
it reads from, or the root if it reads the source, is the parent of its node. An output without a
name is released by the last step that reads it.
-/
namespace Timbre

namespace Step

variable {steps : List Step} {s : Step} {i k : Nat}

/-- The node of the step that a step reads from; the root stands for the source. -/
def inputNode (s : Step) : Nat :=
  match s.input with
  | none => 0
  | some position => position + 1

theorem inputNode_eq_succ_iff : s.inputNode = k + 1 ↔ s.input = some k := by
  unfold inputNode
  cases s.input <;> simp

theorem inputNode_eq_zero_iff : s.inputNode = 0 ↔ s.input = none := by
  unfold inputNode
  cases s.input <;> simp

/-- The step at position `k` is the last one that reads from position `i`. -/
def IsLastReader (steps : List Step) (i k : Nat) : Prop :=
  (∃ s, steps[k]? = some s ∧ s.input = some i) ∧
    ∀ (j : Nat) s, steps[j]? = some s → s.input = some i → j ≤ k

theorem mem_readers {x : Step × Nat} : x ∈ (steps.zipIdx.filter fun p => p.1.input = some i) ↔
    steps[x.2]? = some x.1 ∧ x.1.input = some i := by
  simp [List.mem_filter, List.mem_zipIdx_iff_getElem?]

theorem pairwise_zipIdx_filter (steps : List Step) (p : Step × Nat → Bool) :
    (steps.zipIdx.filter p).Pairwise fun x y => x.2 < y.2 := by
  have h : (steps.zipIdx.map (·.2)).Pairwise (· < ·) := by
    rw [List.zipIdx_map_snd]
    exact List.pairwise_lt_range'
  exact (List.pairwise_map.1 h).filter p

theorem lastReader?_eq_some_iff : lastReader? steps i = some k ↔ IsLastReader steps i k := by
  have hsorted := pairwise_zipIdx_filter steps fun p => p.1.input = some i
  unfold lastReader? IsLastReader
  rw [Option.map_eq_some_iff]
  constructor
  · rintro ⟨x, hx, rfl⟩
    obtain ⟨hs, hi⟩ := mem_readers.1 (List.mem_of_getLast? hx)
    obtain ⟨ys, hys⟩ := List.getLast?_eq_some_iff.1 hx
    refine ⟨⟨x.1, hs, hi⟩, fun j t ht hti => ?_⟩
    have hmem := mem_readers (x := (t, j)) |>.2 ⟨ht, hti⟩
    rw [hys] at hmem hsorted
    rcases List.mem_append.1 hmem with hmem | hmem
    · exact ((List.pairwise_append.1 hsorted).2.2 _ hmem x (List.mem_singleton_self x)).le
    · rw [← List.mem_singleton.1 hmem]
  · rintro ⟨⟨s, hs, hi⟩, hlast⟩
    have hmem := mem_readers (x := (s, k)) |>.2 ⟨hs, hi⟩
    cases hx : (steps.zipIdx.filter fun p => p.1.input = some i).getLast? with
    | none =>
      rw [List.getLast?_eq_none_iff.1 hx] at hmem
      exact absurd hmem List.not_mem_nil
    | some x =>
      refine ⟨x, rfl, ?_⟩
      obtain ⟨ys, hys⟩ := List.getLast?_eq_some_iff.1 hx
      obtain ⟨hxs, hxi⟩ := mem_readers.1 (List.mem_of_getLast? hx)
      have hle := hlast x.2 x.1 hxs hxi
      rw [hys] at hmem hsorted
      rcases List.mem_append.1 hmem with hmem | hmem
      · have := (List.pairwise_append.1 hsorted).2.2 _ hmem x (List.mem_singleton_self x)
        exact absurd hle (Nat.not_le.2 this)
      · rw [← List.mem_singleton.1 hmem]

theorem mem_releasedBy : i ∈ releasedBy steps k ↔
    (∃ s, steps[i]? = some s ∧ s.features = []) ∧ IsLastReader steps i k := by
  rw [← lastReader?_eq_some_iff]
  simp [releasedBy, List.mem_zipIdx_iff_getElem?]
  tauto

theorem getElem?_scheduleReleases (steps : List Step) (k : Nat) : (scheduleReleases steps)[k]? =
    (steps[k]?).map fun s => { s with release := releasedBy steps k } := by
  simp [scheduleReleases]

theorem scheduleReleases_eq_some_iff : (scheduleReleases steps)[k]? = some s ↔
    ∃ t, steps[k]? = some t ∧ s = { t with release := releasedBy steps k } := by
  rw [getElem?_scheduleReleases, Option.map_eq_some_iff]
  simp only [eq_comm]

/-- Who reads what does not depend on the releases. -/
theorem isLastReader_scheduleReleases :
    IsLastReader (scheduleReleases steps) i k ↔ IsLastReader steps i k := by
  constructor
  · rintro ⟨⟨s, hs, hsi⟩, hlast⟩
    obtain ⟨t, ht, rfl⟩ := scheduleReleases_eq_some_iff.1 hs
    exact ⟨⟨t, ht, hsi⟩, fun j t' ht' hti =>
      hlast j _ (scheduleReleases_eq_some_iff.2 ⟨t', ht', rfl⟩) hti⟩
  · rintro ⟨⟨t, ht, hti⟩, hlast⟩
    refine ⟨⟨_, scheduleReleases_eq_some_iff.2 ⟨t, ht, rfl⟩, hti⟩, fun j s hs hsi => ?_⟩
    obtain ⟨t', ht', rfl⟩ := scheduleReleases_eq_some_iff.1 hs
    exact hlast j t' ht' hsi

theorem mem_release_iff (hs : (scheduleReleases steps)[k]? = some s) : i ∈ s.release ↔
    (∃ t, (scheduleReleases steps)[i]? = some t ∧ t.features = []) ∧
      IsLastReader (scheduleReleases steps) i k := by
  obtain ⟨t, ht, rfl⟩ := scheduleReleases_eq_some_iff.1 hs
  rw [mem_releasedBy, isLastReader_scheduleReleases]
  refine and_congr_left fun _ => ⟨?_, ?_⟩
  · rintro ⟨r, hr, hfeatures⟩
    exact ⟨_, scheduleReleases_eq_some_iff.2 ⟨r, hr, rfl⟩, hfeatures⟩
  · rintro ⟨r, hr, hfeatures⟩
    obtain ⟨r', hr', rfl⟩ := scheduleReleases_eq_some_iff.1 hr
    exact ⟨r', hr', hfeatures⟩

end Step

namespace Pipeline

/-- The steps and the lifetime tree say the same of who reads what and what is kept. -/
structure Scheduled (p : Pipeline) : Prop where
  linked : p.tree.Linked
  size_eq : p.tree.size = p.steps.length + 1
  order_eq : p.tree.order = List.range p.tree.size
  valid : p.tree.validate = true
  node_eq : ∀ (k : Nat) s, p.steps[k]? = some s → s.node = k + 1
  parent?_eq : ∀ (k : Nat) s, p.steps[k]? = some s → p.tree.parent? (k + 1) = some s.inputNode
  retained : ∀ (k : Nat) s, p.steps[k]? = some s →
    ∃ m, p.tree.block? (k + 1) = some m ∧ (m.retained = true ↔ s.features ≠ [])
  sorted : ∀ (j k : Nat) s t, j ≤ k → p.steps[j]? = some s → p.steps[k]? = some t →
    s.inputNode ≤ t.inputNode
  release : ∀ (k : Nat) s, p.steps[k]? = some s → ∀ i, i ∈ s.release ↔
    (∃ t, p.steps[i]? = some t ∧ t.features = []) ∧ Step.IsLastReader p.steps i k

theorem Scheduled.inputNode_le {p : Pipeline} (h : p.Scheduled) {k : Nat} {s : Step}
    (hs : p.steps[k]? = some s) : s.inputNode ≤ k :=
  Nat.le_of_lt_succ (h.linked.parent?_lt (h.parent?_eq k s hs))

end Pipeline

namespace Builder

variable {b : Builder} {p : Pipeline} {order : List (Nat × Nat)}

/-- The steps of a pipeline are the prepared stages of a builder, each once, in the given order. -/
structure Schedules (b : Builder) (p : Pipeline) (order : List (Nat × Nat)) : Prop where
  scheduled : p.Scheduled
  source_eq : p.source = b.source
  sourceCount_eq : p.sourceCount = b.sourceCount
  perm : (order.map (·.1)).Perm (List.range b.size)
  length_eq : p.steps.length = order.length
  stage : ∀ (k : Nat) s, p.steps[k]? = some s → ∃ x e, order[k]? = some x ∧
    b.stages[x.1]? = some e ∧ e.transform.prepare p.workers = .ok s.transform ∧
      s.name = e.link.name ∧ s.features = e.features ∧ (places order)[s.inputNode]? = some e.parent
  block : ∀ (k : Nat) x e, order[k]? = some x → b.stages[x.1]? = some e →
    ∃ m, p.tree.block? (k + 1) = some m ∧ m.item = x.1 + 1 ∧ m.size = blockSize e.transform

theorem Schedules.step_of_order (h : b.Schedules p order) {k : Nat} {x : Nat × Nat}
    (hx : order[k]? = some x) : ∃ s e, p.steps[k]? = some s ∧ b.stages[x.1]? = some e ∧
      e.transform.prepare p.workers = .ok s.transform ∧ s.features = e.features ∧
        (places order)[s.inputNode]? = some e.parent := by
  have hlt : k < p.steps.length := h.length_eq ▸ (List.getElem?_eq_some_iff.1 hx).1
  obtain ⟨y, e, hy, he, hprepare, -, hfeatures, hplace⟩ :=
    h.stage k _ (List.getElem?_eq_getElem hlt)
  rw [hx] at hy
  cases hy
  exact ⟨_, e, List.getElem?_eq_getElem hlt, he, hprepare, hfeatures, hplace⟩

theorem Schedules.exists_position (h : b.Schedules p order) {i : Nat} (hi : i < b.size) :
    ∃ (k : Nat) (x : Nat × Nat), order[k]? = some x ∧ x.1 = i := by
  obtain ⟨x, hx, rfl⟩ := List.mem_map.1 (h.perm.mem_iff.2 (List.mem_range.2 hi))
  obtain ⟨k, hk⟩ := List.mem_iff_getElem?.1 hx
  exact ⟨k, x, hk, rfl⟩

theorem places_of_inputOf {id : StageId} {input : Option Nat} {s : Step}
    (h : inputOf order id = .ok input) (hs : s.input = input) :
    (places order)[s.inputNode]? = some id := by
  unfold inputOf at h
  split at h
  · cases h
    rw [Step.inputNode_eq_zero_iff.2 hs]
    rfl
  · rename_i i
    split at h
    · rename_i position hfind
      cases h
      obtain ⟨x, hx, hi⟩ : ∃ x, order[position]? = some x ∧ x.1 = i := by
        rw [List.findIdx?_eq_some_iff_getElem] at hfind
        obtain ⟨hlt, hi, -⟩ := hfind
        exact ⟨order[position], List.getElem?_eq_getElem hlt, by simpa using hi⟩
      rw [Step.inputNode_eq_succ_iff.2 hs]
      simp [places, hx, hi]
    · cases h

theorem makeStep_eq_ok {workers : Nat} {x : Nat × Nat} {s : Step}
    (h : b.makeStep workers order x = .ok s) : ∃ e, b.stages[x.1]? = some e ∧
      e.transform.prepare workers = .ok s.transform ∧ s.name = e.link.name ∧ s.node = x.2 ∧
        s.features = e.features ∧ (places order)[s.inputNode]? = some e.parent := by
  unfold makeStep at h
  split at h
  · cases h
  · rename_i e he
    split at h
    · cases h
    · rename_i transform ht
      split at h
      · cases h
      · rename_i input hinput
        cases h
        exact ⟨e, entry_eq_ok_iff.1 he, ht, rfl, rfl, rfl, places_of_inputOf hinput rfl⟩

theorem makeSteps_eq_ok {workers : Nat} {xs : List (Nat × Nat)} {steps : List Step}
    (h : b.makeSteps workers order xs = .ok steps) :
    steps.length = xs.length ∧ ∀ (k : Nat) s, steps[k]? = some s →
      ∃ x, xs[k]? = some x ∧ b.makeStep workers order x = .ok s := by
  induction xs generalizing steps with
  | nil =>
    cases h
    exact ⟨rfl, fun k s hs => by simp at hs⟩
  | cons x xs ih =>
    rw [makeSteps] at h
    split at h
    · cases h
    · rename_i s hs
      split at h
      · cases h
      · rename_i rest hrest
        cases h
        obtain ⟨hlen, hall⟩ := ih hrest
        refine ⟨by simp [hlen], fun k t ht => ?_⟩
        cases k with
        | zero =>
          cases ht
          exact ⟨x, rfl, hs⟩
        | succ k => exact hall k t ht

theorem build_eq_ok {config : Config} {available : Nat}
    {write : (path text : String) → Except Error Unit}
    (h : b.build config available write = .ok p) :
    ∃ tree order steps addresses, b.breadthFirst = .ok (tree, order) ∧
      b.makeSteps p.workers order order = .ok steps ∧ p.steps = Step.scheduleReleases steps ∧
        p.tree = tree.assign addresses ∧ p.tree.validate = true ∧ p.source = b.source ∧
          p.sourceCount = b.sourceCount ∧ p.layout.footprint = p.tree.footprint ∧
            ∀ limit, config.memoryLimit = some limit → p.layout.footprint ≤ limit := by
  unfold build at h
  split at h
  · cases h
  · split at h
    · cases h
    · rename_i tree order hwalk
      dsimp only at h
      split at h
      · cases h
      · rename_i layout hsolve
        split at h
        · cases h
        · split at h
          · cases h
          · rename_i steps hsteps
            cases h
            obtain ⟨addresses, hstate, hvalid, hlayout, hlimit⟩ := Memory.solve_of_ok hsolve
            refine ⟨tree, order, steps, addresses, hwalk, hsteps, rfl, hstate, ?_, rfl, rfl, ?_,
              hlimit⟩
            · rw [hstate]
              exact hvalid
            · rw [hstate, hlayout]

theorem Walk.step_eq {tree : Memory.Tree} {steps : List Step} {workers : Nat}
    (hw : b.Walk [] tree order) (hsteps : b.makeSteps workers order order = .ok steps) {k : Nat}
    {s : Step} (hs : (Step.scheduleReleases steps)[k]? = some s) :
    ∃ x e, order[k]? = some x ∧ b.stages[x.1]? = some e ∧
      e.transform.prepare workers = .ok s.transform ∧ s.name = e.link.name ∧ s.node = k + 1 ∧
        s.features = e.features ∧ (places order)[s.inputNode]? = some e.parent ∧
          tree.parent? (k + 1) = some s.inputNode ∧
            tree.block? (k + 1) = some (blockOf x.1 e) := by
  obtain ⟨t, ht, rfl⟩ := Step.scheduleReleases_eq_some_iff.1 hs
  obtain ⟨x, hx, hstep⟩ := (makeSteps_eq_ok hsteps).2 k t ht
  obtain ⟨e, he, htransform, hname, hnode, hfeatures, hinput⟩ := makeStep_eq_ok hstep
  obtain ⟨hx2, e', q, he', hblock, hq, hparent⟩ := hw.node k x hx
  rw [he] at he'
  cases he'
  have hlt := (List.getElem?_eq_some_iff.1 hparent).1
  have hqs := (List.getElem?_inj hlt (nodup_places hw.nodup)).1 (hparent.trans hinput.symm)
  exact ⟨x, e, hx, he, htransform, hname, hnode.trans hx2, hfeatures, hinput, hqs ▸ hq, hblock⟩

theorem schedules_of_build (hb : b.WellFormed) {config : Config} {available : Nat}
    {write : (path text : String) → Except Error Unit}
    (h : b.build config available write = .ok p) : ∃ order, b.Schedules p order := by
  obtain ⟨tree, order, steps, addresses, hwalk, hsteps, hp, htree, hvalid, hsource, hcount, -⟩ :=
    build_eq_ok h
  have hw := walk_of_breadthFirst hb hwalk
  have hlinks := Memory.Tree.sameLinks_assign tree addresses
  have hstep (k : Nat) (s : Step) (hs : p.steps[k]? = some s) :=
    hw.step_eq hsteps (k := k) (s := s) (hp ▸ hs)
  have hparent (k : Nat) (s : Step) (hs : p.steps[k]? = some s) :
      tree.parent? (k + 1) = some s.inputNode := by
    obtain ⟨_, _, -, -, -, -, -, -, -, hparent, -⟩ := hstep k s hs
    exact hparent
  have hlength : p.steps.length = order.length := by
    rw [hp, Step.scheduleReleases, List.length_mapIdx, (makeSteps_eq_ok hsteps).1]
  refine ⟨order, ⟨?_, ?_, ?_, hvalid, ?_, ?_, ?_, ?_, ?_⟩, hsource, hcount, hw.perm hb, hlength,
    ?_, ?_⟩
  · rw [htree]
    exact hw.reachable.linked.of_sameLinks hlinks
  · rw [htree, hlinks.1, hw.size_eq, hlength]
  · rw [htree, hlinks.1]
    exact hw.order_eq
  · intro k s hs
    obtain ⟨_, _, -, -, -, -, hnode, -⟩ := hstep k s hs
    exact hnode
  · intro k s hs
    rw [htree, (hlinks.2 _).1, hparent k s hs]
  · intro k s hs
    obtain ⟨x, e, -, -, -, -, -, hfeatures, -, -, hblock⟩ := hstep k s hs
    rw [htree, Memory.Tree.block?_assign, hblock]
    refine ⟨_, rfl, ?_⟩
    simp [blockOf, hfeatures]
  · intro j k s t hjk hs ht
    exact hw.sorted _ _ _ _ (Nat.succ_le_succ hjk) (hparent j s hs) (hparent k t ht)
  · intro k s hs i
    rw [hp] at hs ⊢
    exact Step.mem_release_iff hs
  · intro k s hs
    obtain ⟨x, e, hx, he, htransform, hname, -, hfeatures, hinput, -⟩ := hstep k s hs
    exact ⟨x, e, hx, he, htransform, hname, hfeatures, hinput⟩
  · intro k x e hx he
    obtain ⟨-, e', q, he', hblock, -⟩ := hw.node k x hx
    rw [he] at he'
    cases he'
    rw [htree, Memory.Tree.block?_assign, hblock]
    exact ⟨_, rfl, rfl, rfl⟩

end Builder

end Timbre
