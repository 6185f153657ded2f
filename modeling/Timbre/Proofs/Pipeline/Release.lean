import Timbre.Proofs.Pipeline.Schedule

/-! # What a run holds

A run reads an output only while it holds it. Whether it holds the output of a step while another
step works can be told from the steps alone: the output is written by then, and it is not released
before. Main facts: what a run holds after any number of steps (`Reached`), that every step finds
its input (`Reached.exists_input`), and that a run goes on as long as the stages do
(`Reached.exists_runSteps`).
-/
namespace Timbre.Pipeline

variable {p : Pipeline} {source : AnyBuffers} {outs : List AnyBuffers} {r : Run} {s : Step}
  {i q : Nat}

/-- The output of step `i` is held while step `q` works: it is written by then, and released by that
step or later, or never. -/
def HeldAt (p : Pipeline) (i q : Nat) : Prop :=
  i ≤ q ∧ q < p.steps.length ∧ ∀ (k : Nat) s, p.steps[k]? = some s → i ∈ s.release → q ≤ k

/-- The collection that a step reads, if `outs` is what the steps before it have written. -/
def readFrom (source : AnyBuffers) (outs : List AnyBuffers) (s : Step) : Option AnyBuffers :=
  match s.input with
  | none => some source
  | some position => outs[position]?

/-- What the first steps write one after the other, each from what is written before. -/
inductive Wrote (p : Pipeline) (source : AnyBuffers) : List AnyBuffers → Prop
  | start : Wrote p source []
  | step {outs : List AnyBuffers} {s : Step} {input : AnyBuffers} {x : Transform.Execution} :
    Wrote p source outs → p.steps[outs.length]? = some s → readFrom source outs s = some input →
      s.transform.execute input s.transform.freshOutputs = .ok x →
        Wrote p source (outs ++ [x.outputs])

/-- The outputs that are there while a step works, its own among them. -/
def Run.write (r : Run) (position : Nat) (output : AnyBuffers) : Array (Option AnyBuffers) :=
  r.held.setIfInBounds position (some output)

/-- A run after as many steps as there are outputs: it holds those that are not released yet. -/
structure Reached (p : Pipeline) (source : AnyBuffers) (outs : List AnyBuffers) (r : Run) :
    Prop where
  wrote : p.Wrote source outs
  size_eq : r.held.size = p.steps.length
  held : ∀ (i : Nat) b, r.held[i]? = some (some b) ↔ outs[i]? = some b ∧
    ∀ (k : Nat) s, k < outs.length → p.steps[k]? = some s → i ∉ s.release

theorem readFrom_append {input : AnyBuffers} (h : readFrom source outs s = some input)
    (more : List AnyBuffers) : readFrom source (outs ++ more) s = some input := by
  unfold readFrom at h ⊢
  split at h
  · exact h
  · rw [List.getElem?_append_left (List.getElem?_eq_some_iff.1 h).1, h]

namespace Wrote

theorem getElem? (h : p.Wrote source outs) {k : Nat} {out : AnyBuffers}
    (hout : outs[k]? = some out) : ∃ s input x, p.steps[k]? = some s ∧
      readFrom source outs s = some input ∧
        s.transform.execute input s.transform.freshOutputs = .ok x ∧ x.outputs = out := by
  induction h with
  | start => simp at hout
  | @step outs s input x _ hs hread hx ih =>
    rw [List.getElem?_append] at hout
    split at hout
    · obtain ⟨s', input', x', hs', hread', hx'⟩ := ih hout
      exact ⟨s', input', x', hs', readFrom_append hread' _, hx'⟩
    · rename_i hk
      have hk0 : k - outs.length = 0 := by
        simpa using (List.getElem?_eq_some_iff.1 hout).1
      rw [hk0] at hout
      cases hout
      have hk' : k = outs.length := by omega
      exact ⟨s, input, x, hk' ▸ hs, readFrom_append hread _, hx, rfl⟩

end Wrote

theorem getElem?_foldl_release (release : List Nat) (held : Array (Option AnyBuffers)) (i : Nat) :
    (release.foldl (fun held j => held.setIfInBounds j none) held)[i]? =
      if i ∈ release then (held[i]?).map fun _ => none else held[i]? := by
  induction release generalizing held with
  | nil => rfl
  | cons j release ih =>
    rw [List.foldl_cons, ih, Array.getElem?_setIfInBounds]
    by_cases hj : j = i
    · subst hj
      by_cases hlt : j < held.size
      · simp [hlt]
      · simp [hlt]
    · simp [hj, Ne.symm hj]

theorem size_foldl_release (release : List Nat) (held : Array (Option AnyBuffers)) :
    (release.foldl (fun held j => held.setIfInBounds j none) held).size = held.size := by
  induction release generalizing held with
  | nil => rfl
  | cons j release ih => rw [List.foldl_cons, ih, Array.size_setIfInBounds]

theorem reached_start (p : Pipeline) (source : AnyBuffers) : p.Reached source [] p.start := by
  refine ⟨.start, by simp [start], fun i b => ?_⟩
  simp [start, Array.getElem?_replicate]

section Scheduled

variable (h : p.Scheduled)
include h

theorem Scheduled.lt_of_mem_release {k : Nat} (hs : p.steps[k]? = some s) (hi : i ∈ s.release) :
    i < k := by
  obtain ⟨-, ⟨t, ht, hti⟩, -⟩ := (h.release k s hs i).1 hi
  rw [hs] at ht
  cases ht
  have := h.inputNode_le hs
  rw [Step.inputNode_eq_succ_iff.2 hti] at this
  exact this

/-- A step finds what it reads: it has been written, and nothing before the step released it. -/
theorem Reached.exists_input (hr : p.Reached source outs r) (hs : p.steps[outs.length]? = some s) :
    ∃ input, readFrom source outs s = some input ∧ r.input source s = .ok input := by
  unfold readFrom Run.input
  cases hi : s.input with
  | none => exact ⟨source, rfl, rfl⟩
  | some j =>
    have hj := h.inputNode_le hs
    rw [Step.inputNode_eq_succ_iff.2 hi] at hj
    have hout : outs[j]? = some outs[j] := List.getElem?_eq_getElem hj
    have hheld := (hr.held j outs[j]).2 ⟨hout, fun k t hk ht hrelease => by
      obtain ⟨-, -, hlast⟩ := (h.release k t ht j).1 hrelease
      exact absurd (hlast _ s hs hi) (Nat.not_le.2 hk)⟩
    exact ⟨outs[j], hout, by simp only [hheld]⟩

/-- After a step the outputs are held that were held before it, and its own; the step drops those
that it releases. -/
theorem Reached.held_store (hr : p.Reached source outs r) (hs : p.steps[outs.length]? = some s)
    (out b : AnyBuffers) :
    (r.store s outs.length out)[i]? = some (some b) ↔ (outs ++ [out])[i]? = some b ∧
      i ∉ s.release ∧ ∀ (k : Nat) t, k < outs.length → p.steps[k]? = some t → i ∉ t.release := by
  have hlt := (List.getElem?_eq_some_iff.1 hs).1
  rw [← hr.size_eq] at hlt
  unfold Run.store
  rw [getElem?_foldl_release, Array.getElem?_setIfInBounds, List.getElem?_append]
  by_cases hrelease : i ∈ s.release
  · simp [hrelease]
  · rw [if_neg hrelease]
    by_cases hi : outs.length = i
    · subst hi
      have hpast : ∀ (k : Nat) t, k < outs.length → p.steps[k]? = some t →
          outs.length ∉ t.release :=
        fun k t hk ht hmem => Nat.lt_asymm hk (h.lt_of_mem_release ht hmem)
      simp [hlt, hrelease]
      exact fun _ => hpast
    · rw [if_neg hi, hr.held]
      by_cases hlen : i < outs.length
      · simp [hlen, hrelease]
      · have hpos : i - outs.length ≠ 0 := by omega
        simp [hlen, hpos]

theorem Reached.step (hr : p.Reached source outs r) (hs : p.steps[outs.length]? = some s)
    {input : AnyBuffers} (hread : readFrom source outs s = some input) {x : Transform.Execution}
    (hx : s.transform.execute input s.transform.freshOutputs = .ok x) (warnings : List Warning) :
    p.Reached source (outs ++ [x.outputs]) ⟨r.store s outs.length x.outputs, warnings⟩ := by
  refine ⟨hr.wrote.step hs hread hx, ?_, fun i b => ?_⟩
  · dsimp only [Run.store]
    rw [size_foldl_release, Array.size_setIfInBounds, hr.size_eq]
  · rw [hr.held_store h hs]
    refine and_congr_right fun _ => ?_
    rw [List.length_append, List.length_singleton]
    constructor
    · rintro ⟨hnow, hbefore⟩ k t hk ht
      rcases Nat.lt_succ_iff_lt_or_eq.1 hk with hk | rfl
      · exact hbefore k t hk ht
      · rw [hs] at ht
        cases ht
        exact hnow
    · intro hall
      exact ⟨hall _ s (Nat.lt_succ_self _) hs,
        fun k t hk ht => hall k t (Nat.lt_succ_of_lt hk) ht⟩

/-- Steps that a run has executed were all executed from their inputs. -/
theorem Reached.runSteps {before after steps : List Step} {r' : Run}
    (hsteps : p.steps = before ++ (steps ++ after)) (hlen : outs.length = before.length)
    (hr : p.Reached source outs r)
    (hrun : p.runSteps source r outs.length steps = .ok r') :
    ∃ outs', outs'.length = (before ++ steps).length ∧ p.Reached source outs' r' := by
  induction steps generalizing before outs r with
  | nil =>
    cases hrun
    exact ⟨outs, by rw [hlen, List.append_nil], hr⟩
  | cons s steps ih =>
    have hs : p.steps[outs.length]? = some s := by
      rw [hsteps, hlen, List.getElem?_append_right (Nat.le_refl _), Nat.sub_self]
      rfl
    obtain ⟨input, hread, hinput⟩ := hr.exists_input h hs
    rw [Pipeline.runSteps, runStep, hinput] at hrun
    dsimp only at hrun
    cases hx : s.transform.execute input s.transform.freshOutputs with
    | error e =>
      rw [hx] at hrun
      cases hrun
    | ok x =>
      rw [hx] at hrun
      have hlen' : (outs ++ [x.outputs]).length = outs.length + 1 := by simp
      have hsteps' : p.steps = (before ++ [s]) ++ (steps ++ after) := by simp [hsteps]
      have := ih hsteps' (by simp [hlen])
        (hr.step h hs hread hx _) (by rw [hlen']; exact hrun)
      simpa using this

theorem Reached.exists_runSteps {before after steps : List Step}
    (hsteps : p.steps = before ++ (steps ++ after)) (hlen : outs.length = before.length)
    (hr : p.Reached source outs r)
    (hexecute : ∀ (outs : List AnyBuffers) s input, p.Wrote source outs →
      p.steps[outs.length]? = some s → readFrom source outs s = some input →
        ∃ x, s.transform.execute input s.transform.freshOutputs = .ok x) :
    ∃ r', p.runSteps source r outs.length steps = .ok r' := by
  induction steps generalizing before outs r with
  | nil => exact ⟨r, rfl⟩
  | cons s steps ih =>
    have hs : p.steps[outs.length]? = some s := by
      rw [hsteps, hlen, List.getElem?_append_right (Nat.le_refl _), Nat.sub_self]
      rfl
    obtain ⟨input, hread, hinput⟩ := hr.exists_input h hs
    obtain ⟨x, hx⟩ := hexecute outs s input hr.wrote hs hread
    rw [Pipeline.runSteps, runStep, hinput]
    dsimp only
    rw [hx]
    have hsteps' : p.steps = (before ++ [s]) ++ (steps ++ after) := by simp [hsteps]
    have := ih hsteps' (by simp [hlen])
      (hr.step h hs hread hx (r.warnings ++ x.warnings ++ p.outputWarning s outs.length x.outputs))
    simpa using this

theorem Scheduled.reached_of_take (hq : q ≤ p.steps.length)
    (hrun : p.runSteps source p.start 0 (p.steps.take q) = .ok r) :
    ∃ outs, outs.length = q ∧ p.Reached source outs r := by
  have hsteps : p.steps = [] ++ (p.steps.take q ++ p.steps.drop q) := by simp
  obtain ⟨outs, hlen, hr⟩ := (reached_start p source).runSteps h hsteps rfl hrun
  exact ⟨outs, by simpa [hq] using hlen, hr⟩

theorem Scheduled.heldAt_self (hi : i < p.steps.length) : p.HeldAt i i :=
  ⟨Nat.le_refl i, hi, fun _ _ hs hmem => (h.lt_of_mem_release hs hmem).le⟩

theorem Scheduled.heldAt_of_input {k : Nat} (hs : p.steps[k]? = some s) (hi : s.input = some i) :
    p.HeldAt i k := by
  have hle := h.inputNode_le hs
  rw [Step.inputNode_eq_succ_iff.2 hi] at hle
  refine ⟨Nat.le_of_succ_le hle, (List.getElem?_eq_some_iff.1 hs).1, fun r t ht hmem => ?_⟩
  exact ((h.release r t ht i).1 hmem).2.2 k s hs hi

theorem Reached.write_iff (hr : p.Reached source outs r) (hq : outs.length < p.steps.length)
    (out : AnyBuffers) :
    (∃ b, (r.write outs.length out)[i]? = some (some b)) ↔ p.HeldAt i outs.length := by
  unfold Run.write
  rw [Array.getElem?_setIfInBounds]
  by_cases hi : outs.length = i
  · subst hi
    have hlt : outs.length < r.held.size := hr.size_eq ▸ hq
    simp [hlt, h.heldAt_self hq]
  · rw [if_neg hi]
    simp only [hr.held, HeldAt]
    constructor
    · rintro ⟨b, hb, hall⟩
      have hlt := (List.getElem?_eq_some_iff.1 hb).1
      refine ⟨hlt.le, hq, fun k s hs hmem => ?_⟩
      by_contra hk
      exact hall k s (Nat.not_le.1 hk) hs hmem
    · rintro ⟨hle, -, hall⟩
      have hlt : i < outs.length := by omega
      refine ⟨outs[i], List.getElem?_eq_getElem hlt, fun k s hk hs hmem => ?_⟩
      exact absurd (hall k s hs hmem) (Nat.not_le.2 hk)

end Scheduled

end Timbre.Pipeline
