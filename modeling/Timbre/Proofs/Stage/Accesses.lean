import Timbre.Proofs.Kernel.Guarded
import Timbre.Proofs.Kernel.Preparing
import Timbre.Proofs.Stage.Reuse

/-! # Accesses within their arrays

A prepared stage does not fail on elements that fit its formats. For the kernels that address single
values or slices, work is the same with every position, slice and difference of numbers checked. So
none of them is ever out of range, whatever settings and size were accepted, and however often the
stage has worked before. Main statement: `answers_of_guarded`.
-/
namespace Timbre.Stage

variable {k : Kernel} {s₀ s s' : Stage k} {count n workers : Nat} {warnings : List Warning}

/-- The stage answers all elements that fit its formats, however often it is executed. -/
def AnswersAll (s : Stage k) (count : Nat) : Prop :=
  ∀ uses : List (Buffers k.input × Buffers k.output),
    (∀ u ∈ uses, s.input.FitsAll count u.1.elements ∧ s.output.FitsAll s.count u.2.elements) →
      ∀ a ∈ s.answers (uses.map fun u => (⟨_, u.1⟩, ⟨_, u.2⟩)), ∃ written, a = .ok written

theorem answersAll_of_keeps
    (hrun : ∀ (b : Buffers k.input) (c : Buffers k.output), s.input.FitsAll count b.elements →
      s.output.FitsAll s.count c.elements → ∃ x, s.execute ⟨_, b⟩ ⟨_, c⟩ = .ok x ∧ x.stage = s) :
    s.AnswersAll count := by
  intro uses huses
  induction uses with
  | nil => exact fun a ha => absurd ha List.not_mem_nil
  | cons u uses ih =>
    obtain ⟨⟨hinput, houtput⟩, hrest⟩ := List.forall_mem_cons.1 huses
    obtain ⟨x, hx, hstage⟩ := hrun u.1 u.2 hinput houtput
    have hcall : s.call (.execute ⟨_, u.1⟩ ⟨_, u.2⟩) = s := by
      dsimp only [call]
      rw [hx, ← hstage]
      rfl
    rw [List.map_cons, answers, List.forall_mem_cons, hcall, hx]
    exact ⟨⟨_, rfl⟩, ih hrest⟩

theorem answersAll_of_answersBy {R : k.Settings → k.Plan → k.Plan → Prop}
    {answer : k.input.Element → k.output.Element} (h : s.AnswersBy R answer)
    (hplan : R s.settings s.plan s.plan) (hcount : s.count = count) : s.AnswersAll count := by
  intro uses huses a ha
  have hall := h.answers_eq hplan uses fun u hu => ⟨count, (huses u hu).1, hcount ▸ (huses u hu).2⟩
  dsimp only at hall
  rw [hall] at ha
  obtain ⟨u, -, rfl⟩ := List.mem_map.1 ha
  exact ⟨_, rfl⟩

/-- What was in the outputs before does not matter, so it is enough that work on fresh ones does not
fail. -/
theorem exists_execute_over (hk : k ∈ builtinKernels) (hinput : k.input ≠ .identity)
    {f : Format k.input} (haccept : s₀.accept ⟨k.input, f⟩ count = ⟨s, .ok n, warnings⟩)
    (hprepare : s.prepare workers = .ok s') (hcountable : k.Countable f) {b : Buffers k.input}
    (hb : f.FitsAll count b.elements) {c : Buffers k.output}
    (hc : s'.output.FitsAll s'.count c.elements) :
    ∃ w, s'.work b.elements c.elements = .ok w ∧ s'.execute ⟨_, b⟩ ⟨_, c⟩ =
      .ok ⟨{ s' with plan := w.plan }, { c with elements := w.output }, w.warnings⟩ := by
  obtain ⟨hprepared, rfl⟩ := prepared_of_prepare haccept hprepare
  have hoverwrites := overwrites_of_prepare hk haccept hprepare
  have hconforms : AnyBuffers.Conforms ⟨k.input, b⟩ ⟨k.input, s'.input⟩ count := ⟨b, rfl, hb⟩
  obtain ⟨fresh, hfresh⟩ := exists_execute_of_countable hk haccept hprepare hcountable hconforms
  have hsame := hoverwrites.elements_eq hprepared (.inl rfl) hconforms hc s'.fitsAll_freshOutputs
  rw [hfresh] at hsame
  have hexecute := execute_eq hprepared (takeElements_mk hinput s' b) c
  cases hw : s'.work b.elements c.elements with
  | error e =>
    rw [hexecute, hw] at hsame
    cases hsame
  | ok w =>
    rw [hw] at hexecute
    exact ⟨w, rfl, hexecute⟩

section Guarded

variable {work : Work k.Settings k.Shape k.Plan k.input.Element k.output.Element}

theorem mem_builtin_of_guarded (h : Kernel.Guarded k work) :
    k ∈ builtinKernels ∧ k.name ≠ FilterBank.kernel.name ∧ k.input ≠ .identity := by
  cases h <;> exact ⟨by simp [builtinKernels], by decide, by decide⟩

theorem plan_eq_of_framing {s : Stage Framing.kernel} {signals outs : Array (Array Single)}
    {w : Written (Array (Array Single)) (Array Single)} (h : s.work signals outs = .ok w) :
    w.plan = s.plan := by
  have hframes := mapError_eq_ok_iff.1 h
  obtain ⟨ys, -, hw⟩ := bind_eq_ok_iff.1 hframes
  cases hw
  rfl

theorem scratched_or_plan_eq (h : Kernel.Guarded k work) :
    (∃ R, Kernel.Scratched k R) ∨
      ∀ (s : Stage k) inputs outs w, s.work inputs outs = .ok w → w.plan = s.plan := by
  cases h with
  | forward => exact .inl ⟨_, .forward⟩
  | inverse => exact .inl ⟨_, .inverse⟩
  | difference => exact .inl ⟨_, .difference⟩
  | autocorrelation => exact .inl ⟨_, .autocorrelation⟩
  | framing => exact .inr fun _ _ _ _ => plan_eq_of_framing
  | padding => exact .inr fun _ _ _ _ _ => rfl
  | subbands => exact .inr fun _ _ _ _ _ => rfl
  | tempo => exact .inr fun _ _ _ _ _ => rfl

theorem answersAll_of_scratched {R : k.Settings → k.Plan → k.Plan → Prop}
    (hk : Kernel.Scratched k R) (hinput : k.input ≠ .identity) {f : Format k.input}
    (haccept : s₀.accept ⟨k.input, f⟩ count = ⟨s, .ok n, warnings⟩)
    (hprepare : s.prepare workers = .ok s') : s'.AnswersAll count := by
  have hanswering := Kernel.answering_of_scratched hk
  obtain ⟨answer, hanswer⟩ := exists_answersBy hanswering hinput haccept hprepare
  obtain ⟨input, known, output, -, -, haccepted, rfl⟩ := accept_eq_ok haccept
  obtain ⟨plan, hplan, rfl⟩ := prepare_eq_ok hprepare
  exact answersAll_of_answersBy hanswer (hanswering.refl hplan)
    (hanswering.exists_answer haccepted hplan).1

/-- For the kernels that address single values or slices, work is the one in which every position,
slice and difference is checked; and a stage that has accepted a format can be prepared, and then no
check fails on elements that fit, however often it works. -/
theorem answers_of_guarded (hk : Kernel.Guarded k work) (f : Format k.input)
    (haccept : s₀.accept ⟨k.input, f⟩ count = ⟨s, .ok n, warnings⟩) (workers : Nat) :
    k.work = work ∧
      ∃ s', s.prepare workers = .ok s' ∧ s'.input = f ∧ s'.AnswersAll count := by
  obtain ⟨hmem, hname, hinput⟩ := mem_builtin_of_guarded hk
  obtain ⟨s', hprepare⟩ := exists_prepare (Kernel.prepares_of_mem_builtin hmem) haccept workers
  obtain ⟨-, hf⟩ := prepared_of_prepare haccept hprepare
  refine ⟨Kernel.work_eq_of_guarded hk, s', hprepare, hf, ?_⟩
  obtain ⟨R, hscratched⟩ | hkeeps := scratched_or_plan_eq hk
  · exact answersAll_of_scratched hscratched hinput haccept hprepare
  · refine answersAll_of_keeps fun b c hb hc => ?_
    obtain ⟨w, hw, hexecute⟩ := exists_execute_over hmem hinput haccept hprepare
      (fun h => absurd h hname) (hf ▸ hb) hc
    exact ⟨_, hexecute, by rw [hkeeps s' _ _ w hw]⟩

/-- Wavelet details of three values at distance two, taken two times in a row. -/
theorem answers_of_guarded_spoken : Difference.kernel.work = Difference.workLoop ∧
    ∃ s s' : Stage Difference.kernel,
      Stage.accept { new Difference.kernel with settings := ({ level := 2 } : Difference.Settings) }
        ⟨Signal, telephone 3⟩ 1 = ⟨s, .ok 1, []⟩ ∧ s.prepare 1 = .ok s' ∧
          ∀ a ∈ s'.answers [(⟨Signal, spoken #[1, 2, 4]⟩, ⟨Signal, spoken #[0, 0, 0]⟩),
              (⟨Signal, spoken #[4, 2, 1]⟩, ⟨Signal, spoken #[7, 7, 7]⟩)],
            ∃ written, a = .ok written := by
  have haccept : Stage.accept
    { new Difference.kernel with settings := ({ level := 2 } : Difference.Settings) }
    ⟨Signal, telephone 3⟩ 1 = ⟨_, .ok 1, []⟩ := rfl
  obtain ⟨hwork, s', hprepare, -, hall⟩ := answers_of_guarded .difference (telephone 3) haccept 1
  refine ⟨hwork, _, s', haccept, hprepare, ?_⟩
  cases hprepare
  exact hall [(spoken #[1, 2, 4], spoken #[0, 0, 0]), (spoken #[4, 2, 1], spoken #[7, 7, 7])]
    (by simpa using ⟨⟨fitsAll_spoken #[1, 2, 4], fitsAll_spoken #[0, 0, 0]⟩,
      fitsAll_spoken #[4, 2, 1], fitsAll_spoken #[7, 7, 7]⟩)

end Guarded

end Timbre.Stage
