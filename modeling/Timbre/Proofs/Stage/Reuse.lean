import Timbre.Proofs.Stage.Overruns

/-! # Outputs and scratch values that are used again

A prepared stage writes over whatever its outputs hold. So the outputs of an earlier run may be
given to it again, and they hold afterwards what fresh ones would hold: `elements_eq_of_execute`.
The one stage that fails is a filter bank with a filter that ends behind the last point of its
spectra. A stage with scratch values answers each element by itself, whatever stands in these
values. So it does not matter how many workers it was prepared for, which slot it takes or what it
has worked on before, for any number of runs: `exists_answer_of_refilled`.
-/
namespace Timbre

namespace Kernel

/-- The kernels with scratch values. A plan is a refill of another if the values that the two use
next have the same lengths. -/
inductive Scratched : (k : Kernel) → (k.Settings → k.Plan → k.Plan → Prop) → Prop
  | difference : Scratched Difference.kernel Difference.Refilled
  | forward : Scratched Spectrum.forwardKernel fun _ => Spectrum.Refilled
  | inverse : Scratched Spectrum.inverseKernel fun _ => Spectrum.Refilled
  | autocorrelation : Scratched Autocorrelation.kernel fun _ => Spectrum.Refilled

theorem answering_of_scratched {k : Kernel} {R : k.Settings → k.Plan → k.Plan → Prop}
    (h : Scratched k R) : k.Answering R := by
  cases h with
  | difference => exact Difference.answering_kernel
  | forward => exact Spectrum.answering_forwardKernel
  | inverse => exact Spectrum.answering_inverseKernel
  | autocorrelation => exact Autocorrelation.answering_kernel

end Kernel

namespace Stage

variable {k : Kernel} {s₀ s s' t : Stage k} {count n workers : Nat} {warnings : List Warning}

theorem fitsAll_freshOutputs (s : Stage k) :
    s.output.FitsAll s.count s.freshOutputs.elements :=
  s.output.fitsAll_replicate s.count

theorem execute_eq (hprepared : s.prepared = true) {inputs : AnyBuffers} {b : Buffers k.input}
    (hinputs : s.takeElements inputs = .ok b) (c : Buffers k.output) :
    s.execute inputs ⟨_, c⟩ = (s.work b.elements c.elements).map fun w =>
      ⟨{ s with plan := w.plan }, { c with elements := w.output }, w.warnings⟩ := by
  unfold execute
  rw [hprepared, hinputs, AnyBuffers.as?_mk]
  dsimp only [Bool.not_true]
  cases s.work b.elements c.elements <;> rfl

theorem Overwrites.elements_eq (h : s.Overwrites count) (hprepared : s.prepared = true)
    {f : AnyFormat} (hinput : f = ⟨k.input, s.input⟩ ∨ k.input = .identity) {inputs : AnyBuffers}
    (hinputs : inputs.Conforms f count) {b c : Buffers k.output}
    (hb : s.output.FitsAll s.count b.elements) (hc : s.output.FitsAll s.count c.elements) :
    (s.execute inputs ⟨_, b⟩).map (·.outputs.elements) =
      (s.execute inputs ⟨_, c⟩).map (·.outputs.elements) := by
  obtain ⟨taken, htaken, hfits⟩ := takeElements_eq_ok hinput hinputs
  have helements (d : Buffers k.output) : (s.execute inputs ⟨_, d⟩).map (·.outputs.elements) =
      (s.work taken.elements d.elements).map Written.output := by
    rw [execute_eq hprepared htaken]
    cases s.work taken.elements d.elements <;> rfl
  rw [helements, helements]
  exact h taken.elements b.elements c.elements hfits hb hc

theorem takeElements_mk (hk : k.input ≠ .identity) (s : Stage k) (b : Buffers k.input) :
    s.takeElements ⟨_, b⟩ = .ok b := by
  unfold takeElements
  rw [if_neg (mt Kind.isIdentity_id_iff.1 hk), s.input.downcast_mk]

theorem prepared_of_prepare {f : Format k.input}
    (haccept : s₀.accept ⟨k.input, f⟩ count = ⟨s, .ok n, warnings⟩)
    (hprepare : s.prepare workers = .ok s') : s'.prepared = true ∧ s'.input = f := by
  obtain ⟨input, _, _, hinput, -, -, rfl⟩ := accept_eq_ok haccept
  obtain ⟨plan, -, rfl⟩ := prepare_eq_ok hprepare
  exact ⟨rfl, Except.ok.inj (hinput.symm.trans (takeInput_mk _ f))⟩

section Overwriting

variable (hk : k ∈ builtinKernels) {f : Format k.input}
  (haccept : s₀.accept ⟨k.input, f⟩ count = ⟨s, .ok n, warnings⟩)
  (hprepare : s.prepare workers = .ok s')

include haccept hprepare

theorem not_overruns_of_countable (hcountable : k.Countable f) : ¬s'.Overruns := by
  intro h
  cases h with
  | intro hover =>
    exact not_overruns_of_bank haccept hprepare (hcountable rfl) (.intro hover)

/-- A bank with a filter that ends behind the last point fails as soon as there is a spectrum. -/
theorem execute_of_overruns (hcount : count ≠ 0) (h : s'.Overruns) {inputs : AnyBuffers}
    (hinputs : inputs.Conforms ⟨k.input, f⟩ count) {c : Buffers k.output}
    (hc : s'.output.FitsAll s'.count c.elements) :
    s'.execute inputs ⟨_, c⟩ = .error (.fault k.name .outOfRange) := by
  obtain ⟨hprepared, -⟩ := prepared_of_prepare haccept hprepare
  cases h with
  | intro hover =>
    obtain ⟨taken, rfl, hfits⟩ := hinputs
    have hkind : FilterBank.kernel.input ≠ .identity := by decide
    have hwork := work_of_overruns haccept hprepare hcount (.intro hover) hfits hc
    rw [execute_eq hprepared (takeElements_mk hkind _ taken), hwork]
    rfl

include hk

theorem overwrites_of_prepare : s'.Overwrites count := by
  obtain ⟨input, known, output, -, -, hanswer, rfl⟩ := accept_eq_ok haccept
  obtain ⟨plan, hplan, rfl⟩ := prepare_eq_ok hprepare
  exact Kernel.overwrites_of_mem_builtin hk _ _ _ _ _ _ _ _ _ _ hanswer hplan

/-- The stage is like one that was created with the same parameters, and that one works. -/
theorem exists_execute_of_countable (hcountable : k.Countable f) {b : AnyBuffers}
    (hb : b.Conforms ⟨k.input, f⟩ count) : ∃ x, s'.execute b ⟨_, s'.freshOutputs⟩ = .ok x := by
  obtain ⟨-, rfl⟩ := prepared_of_prepare haccept hprepare
  have hforgetful := Kernel.forgetful_of_mem_builtin hk
  obtain ⟨t, ht, hlike⟩ := exists_prepare_like hforgetful hprepare k.plan
  obtain ⟨input, known, output, -, -, hanswer, hs⟩ :=
    accept_eq_ok (accept_renewed hforgetful haccept)
  rw [hs] at ht
  obtain ⟨plan, hplan, rfl⟩ := prepare_eq_ok ht
  obtain ⟨-, hinput, houtput, hcount⟩ := hlike.same
  dsimp only at hinput houtput hcount
  have hworks := Kernel.soundOn_of_mem_builtin hk _ _ _ _ _ _ _ _ (hinput ▸ hcountable) hanswer
    hplan
  obtain ⟨x, hx, -⟩ := exists_execute rfl hworks (.inl rfl) (hinput ▸ hb)
  have hfresh : s'.freshOutputs = .fresh output n := by rw [freshOutputs, houtput, hcount]
  obtain ⟨y, hy, -⟩ := hlike.exists_execute hx
  rw [hfresh]
  exact ⟨y, hy⟩

theorem exists_execute_of_not_overruns (hover : count = 0 ∨ ¬s'.Overruns) {b : AnyBuffers}
    (hb : b.Conforms ⟨k.input, f⟩ count) : ∃ x, s'.execute b ⟨_, s'.freshOutputs⟩ = .ok x := by
  by_cases hname : k.name = FilterBank.kernel.name
  · obtain rfl := Kernel.eq_filterBank_of_name hk hname
    obtain ⟨hprepared, rfl⟩ := prepared_of_prepare haccept hprepare
    have hworks := works_of_not_overruns haccept hprepare hover
    obtain ⟨x, hx, -⟩ := exists_execute hprepared hworks (.inl rfl) hb
    exact ⟨x, hx⟩
  · exact exists_execute_of_countable hk haccept hprepare (fun h => absurd h hname) hb

end Overwriting

/-- A prepared stage of a kernel of the library leaves the same elements in any outputs of the right
number and shape, whatever they held before, and so the same as in fresh ones. It does not fail,
unless a filter of it ends behind the last point of its spectra: then it fails as soon as there is a
spectrum. No filter does where single precision counts the points. -/
theorem elements_eq_of_execute (hk : k ∈ builtinKernels) (f : Format k.input)
    (haccept : s₀.accept ⟨k.input, f⟩ count = ⟨s, .ok n, warnings⟩)
    (hprepare : s.prepare workers = .ok s') (inputs : AnyBuffers)
    (hinputs : inputs.Conforms ⟨k.input, f⟩ count) (b c : Buffers k.output)
    (hb : s'.output.FitsAll s'.count b.elements) (hc : s'.output.FitsAll s'.count c.elements) :
    (s'.execute inputs ⟨_, b⟩).map (·.outputs.elements) =
        (s'.execute inputs ⟨_, c⟩).map (·.outputs.elements) ∧
      (count = 0 ∨ ¬s'.Overruns → ∃ x y, s'.execute inputs ⟨_, b⟩ = .ok x ∧
        s'.execute inputs ⟨_, c⟩ = .ok y ∧ x.outputs.elements = y.outputs.elements) ∧
      (count ≠ 0 → s'.Overruns →
        s'.execute inputs ⟨_, b⟩ = .error (.fault k.name .outOfRange) ∧
        s'.execute inputs ⟨_, c⟩ = .error (.fault k.name .outOfRange)) ∧
      (k.Countable f → ¬s'.Overruns) := by
  have hoverwrites := overwrites_of_prepare hk haccept hprepare
  obtain ⟨hprepared, hinput⟩ := prepared_of_prepare haccept hprepare
  have hsame {b c : Buffers k.output} (hb : s'.output.FitsAll s'.count b.elements)
      (hc : s'.output.FitsAll s'.count c.elements) :
      (s'.execute inputs ⟨_, b⟩).map (·.outputs.elements) =
        (s'.execute inputs ⟨_, c⟩).map (·.outputs.elements) :=
    hoverwrites.elements_eq hprepared (.inl (by rw [hinput])) hinputs hb hc
  refine ⟨hsame hb hc, fun hover => ?_, fun hcount hover => ?_,
    not_overruns_of_countable haccept hprepare⟩
  · obtain ⟨fresh, hfresh⟩ := exists_execute_of_not_overruns hk haccept hprepare hover hinputs
    have hlike {d : Buffers k.output} (hd : s'.output.FitsAll s'.count d.elements) :
        ∃ x, s'.execute inputs ⟨_, d⟩ = .ok x ∧ x.outputs.elements = fresh.outputs.elements := by
      apply map_eq_ok_iff.1
      rw [hsame hd s'.fitsAll_freshOutputs, hfresh]
      rfl
    obtain ⟨x, hx, hxs⟩ := hlike hb
    obtain ⟨y, hy, hys⟩ := hlike hc
    exact ⟨x, y, hx, hy, hxs.trans hys.symm⟩
  · exact ⟨execute_of_overruns haccept hprepare hcount hover hinputs hb,
      execute_of_overruns haccept hprepare hcount hover hinputs hc⟩

def spoken (xs : Array Single) : Buffers Signal := .ofElements (telephone xs.size) #[xs]

theorem fitsAll_spoken (xs : Array Single) :
    (telephone xs.size).FitsAll 1 (spoken xs).elements :=
  Format.fitsAll_singleton rfl

/-- Differences of two samples, over the ones of an earlier run and over zeros. -/
theorem elements_eq_of_execute_spoken : ∃ s s' : Stage Difference.kernel,
    (new Difference.kernel).accept ⟨Signal, telephone 2⟩ 1 = ⟨s, .ok 1, []⟩ ∧
      s.prepare 1 = .ok s' ∧ ∃ x y,
        s'.execute ⟨Signal, spoken #[1, 2]⟩ ⟨Signal, spoken #[1, -1]⟩ = .ok x ∧
        s'.execute ⟨Signal, spoken #[1, 2]⟩ ⟨Signal, spoken #[0, 0]⟩ = .ok y ∧
          x.outputs.elements = y.outputs.elements := by
  have hname : Difference.kernel.name ≠ FilterBank.kernel.name := by decide
  refine ⟨_, _, rfl, rfl, ?_⟩
  obtain ⟨-, hworks, -, hcounted⟩ := elements_eq_of_execute (k := Difference.kernel)
    (by simp [builtinKernels]) (telephone 2) rfl rfl ⟨Signal, spoken #[1, 2]⟩
    ⟨_, rfl, fitsAll_spoken #[1, 2]⟩ (spoken #[1, -1]) (spoken #[0, 0]) (fitsAll_spoken #[1, -1])
    (fitsAll_spoken #[0, 0])
  exact hworks (.inr (hcounted fun h => absurd h hname))

/-- One filter between 3999 and 4000 Hz. -/
def highest : FilterBank.Settings := { scale := .linear, number := 1, low := 3999, high := 4000 }

def highestParams : Params :=
  .ofList [("type", "linear"), ("number", "1"), ("frequency_min", "3999"),
    ("frequency_max", "4000")]

theorem overruns_highest : FilterBank.Overruns 16777220
    (FilterBank.filters highest.scale.scale false 1 16777220 ((8000 : Nat) : Single) 3999 4000) :=
  ⟨_, Array.mem_ofFn.2 ⟨0, rfl⟩, by decide +kernel⟩

def silence (size : Nat) : Buffers Signal := .ofElements (telephone size) #[Array.replicate size 0]

theorem conforms_silence (size : Nat) :
    AnyBuffers.Conforms ⟨Signal, silence size⟩ ⟨Signal, telephone size⟩ 1 :=
  ⟨_, rfl, Format.fitsAll_singleton Array.size_replicate⟩

/-- The last of 16777220 points has the position 16777219, which single precision rounds up. The
spectra are accepted, and the filter ends at position 16777220, where there is no point: the stage
fails on silence. -/
theorem execute_highest_eq_fault : ∃ s₀ s s' : Stage FilterBank.kernel,
    Registry.builtin.create FilterBank.kernel.name highestParams = .ok ⟨FilterBank.kernel, s₀⟩ ∧
      s₀.accept ⟨Signal, telephone 16777220⟩ 1 = ⟨s, .ok 1, []⟩ ∧ s.prepare 1 = .ok s' ∧
      AnyBuffers.Conforms ⟨Signal, silence 16777220⟩ ⟨Signal, telephone 16777220⟩ 1 ∧
      s'.output.FitsAll s'.count s'.freshOutputs.elements ∧
        s'.execute ⟨Signal, silence 16777220⟩ ⟨Signal, s'.freshOutputs⟩ =
          .error (.fault FilterBank.kernel.name .outOfRange) := by
  have hcreate : Registry.builtin.create FilterBank.kernel.name highestParams =
    .ok ⟨FilterBank.kernel, { new FilterBank.kernel with settings := highest }⟩ := rfl
  have haccept : Stage.accept { new FilterBank.kernel with settings := highest }
    ⟨Signal, telephone 16777220⟩ 1 = ⟨_, .ok 1, []⟩ := rfl
  have hprepare : Stage.prepare (Stage.accept { new FilterBank.kernel with settings := highest }
    ⟨Signal, telephone 16777220⟩ 1).state 1 = .ok _ := rfl
  have hsilence := conforms_silence 16777220
  refine ⟨_, _, _, hcreate, haccept, hprepare, hsilence, fitsAll_freshOutputs _, ?_⟩
  exact execute_of_overruns haccept hprepare Nat.one_ne_zero (.intro overruns_highest) hsilence
    (fitsAll_freshOutputs _)

section Refilling

variable {R : k.Settings → k.Plan → k.Plan → Prop} {f : Format k.input}
  {answer : k.input.Element → k.output.Element}

/-- With every refill of its plan the stage writes the answers of the elements, however many there
are, and is left with a refill. -/
def AnswersBy (s : Stage k) (R : k.Settings → k.Plan → k.Plan → Prop)
    (answer : k.input.Element → k.output.Element) : Prop :=
  ∀ plan m (b : Buffers k.input) (c : Buffers k.output), R s.settings s.plan plan →
    s.input.FitsAll m b.elements → s.output.FitsAll m c.elements →
      ∃ plan', Stage.execute { s with plan := plan } ⟨_, b⟩ ⟨_, c⟩ =
          .ok ⟨{ s with plan := plan' }, { c with elements := b.elements.map answer }, []⟩ ∧
        R s.settings s.plan plan'

theorem exists_answersBy (h : k.Answering R) (hk : k.input ≠ .identity)
    (haccept : s₀.accept ⟨k.input, f⟩ count = ⟨s, .ok n, warnings⟩)
    (hprepare : s.prepare workers = .ok s') : ∃ answer, s'.AnswersBy R answer := by
  obtain ⟨input, known, output, -, -, hanswer, rfl⟩ := accept_eq_ok haccept
  obtain ⟨plan, hplan, rfl⟩ := prepare_eq_ok hprepare
  obtain ⟨-, answer, -, hwork⟩ := h.exists_answer hanswer hplan
  refine ⟨answer, fun p m b c hp hb hc => ?_⟩
  obtain ⟨p', hp', hrelated⟩ := hwork p m b.elements c.elements hp hb hc
  refine ⟨p', ?_, hrelated⟩
  rw [execute_eq rfl (takeElements_mk hk _ b), hp']
  rfl

theorem AnswersBy.answers_eq (h : s.AnswersBy R answer) {plan : k.Plan}
    (hplan : R s.settings s.plan plan) (uses : List (Buffers k.input × Buffers k.output))
    (huses : ∀ u ∈ uses, ∃ m, s.input.FitsAll m u.1.elements ∧ s.output.FitsAll m u.2.elements) :
    Stage.answers { s with plan := plan } (uses.map fun u => (⟨_, u.1⟩, ⟨_, u.2⟩)) =
      uses.map fun u => .ok ({ u.2 with elements := u.1.elements.map answer }, []) := by
  induction uses generalizing plan with
  | nil => rfl
  | cons u uses ih =>
    obtain ⟨⟨m, hinput, houtput⟩, hrest⟩ := List.forall_mem_cons.1 huses
    obtain ⟨plan', hexecute, hplan'⟩ := h plan m u.1 u.2 hplan hinput houtput
    rw [List.map_cons, List.map_cons, answers, ← ih hplan' hrest]
    dsimp only [call]
    rw [hexecute]
    rfl

/-- There is one answer for each element, and each run writes the answers of its elements: whatever
stands in the scratch values, as long as they have the lengths that they were given when the stage
was prepared, over any outputs of the right number and shape, and after any other runs. Preparing
the stage for another number of workers makes no difference. -/
theorem exists_answer_of_refilled (hk : Kernel.Scratched k R) (f : Format k.input)
    (haccept : s₀.accept ⟨k.input, f⟩ count = ⟨s, .ok n, warnings⟩)
    (hprepare : s.prepare workers = .ok s') :
    ∃ answer : k.input.Element → k.output.Element,
      (∀ plan, R s'.settings s'.plan plan → ∀ uses : List (Buffers k.input × Buffers k.output),
        (∀ u ∈ uses, ∃ m, f.FitsAll m u.1.elements ∧ s'.output.FitsAll m u.2.elements) →
          Stage.answers { s' with plan := plan } (uses.map fun u => (⟨_, u.1⟩, ⟨_, u.2⟩)) =
            uses.map fun u => .ok ({ u.2 with elements := u.1.elements.map answer }, [])) ∧
      ∀ workers', ∃ plan, s.prepare workers' = .ok { s' with plan := plan } ∧
        R s'.settings s'.plan plan := by
  have hanswering := Kernel.answering_of_scratched hk
  have hinput : k.input ≠ .identity := by
    cases hk <;> nofun
  obtain ⟨answer, hanswer⟩ := exists_answersBy hanswering hinput haccept hprepare
  obtain ⟨-, hinput⟩ := prepared_of_prepare haccept hprepare
  subst hinput
  refine ⟨answer, fun plan hplan => hanswer.answers_eq hplan, fun workers' => ?_⟩
  obtain ⟨plan, hplan, rfl⟩ := prepare_eq_ok hprepare
  obtain ⟨plan', hplan', hrelated⟩ :=
    hanswering.related _ _ _ _ _ _ _ (max workers' 1) hplan
  refine ⟨plan', ?_, hrelated⟩
  unfold prepare
  rw [hplan']

/-- Buffers for two bins: one is busy, and the next one still holds the bin twice. -/
def littered (x : Bin Single) : Plan Single :=
  ⟨Fourier.transform .forward, ⟨#[⟨#[], true⟩, ⟨#[x, x], false⟩]⟩⟩

theorem supplied_littered (x : Bin Single) :
    (littered x).Supplied (Fourier.transform .forward) 2 := by
  refine ⟨rfl, 1, #[x, x], ScratchPool.firstFree?_eq_some_iff.2 ⟨rfl, ?_⟩, rfl⟩
  intro j hj slot hslot
  obtain rfl : j = 0 := by omega
  cases hslot
  rfl

/-- The spectrum of two samples, from a stage for three workers and from one with littered buffers.
-/
theorem exists_answer_of_refilled_spoken : ∃ s s' : Stage Spectrum.forwardKernel,
    (new Spectrum.forwardKernel).accept ⟨Signal, telephone 2⟩ 1 = ⟨s, .ok 1, []⟩ ∧
      s.prepare 3 = .ok s' ∧ ∀ x,
        Stage.answers { s' with plan := some (littered x) }
            [(⟨Signal, spoken #[1, 2]⟩, ⟨Signal, spoken #[3, 4, 5, 6]⟩)] =
          s'.answers [(⟨Signal, spoken #[1, 2]⟩, ⟨Signal, spoken #[3, 4, 5, 6]⟩)] := by
  have haccept : (new Spectrum.forwardKernel).accept ⟨Signal, telephone 2⟩ 1 =
    ⟨_, .ok 1, []⟩ := rfl
  have hprepare : Stage.prepare ((new Spectrum.forwardKernel).accept ⟨Signal, telephone 2⟩ 1).state
    3 = .ok _ := rfl
  refine ⟨_, _, haccept, hprepare, fun x => ?_⟩
  obtain ⟨answer, hanswers, -⟩ := exists_answer_of_refilled .forward (telephone 2) haccept hprepare
  have huses : ∀ u ∈ [(spoken #[1, 2], spoken #[3, 4, 5, 6])], ∃ m,
      (telephone 2).FitsAll m u.1.elements ∧ (telephone 4).FitsAll m u.2.elements := by
    simpa using ⟨1, fitsAll_spoken #[1, 2], fitsAll_spoken #[3, 4, 5, 6]⟩
  have hplanned := Plan.supplied_ofLength (Fourier.transform (α := Single) .forward) 2 3
  have hsame := hplanned.refilled_iff.2 hplanned
  have hlittered := hplanned.refilled_iff.2 (supplied_littered x)
  exact (hanswers _ ⟨_, _, rfl, rfl, hlittered⟩ _ huses).trans
    (hanswers _ ⟨_, _, rfl, rfl, hsame⟩ _ huses).symm

end Refilling

end Stage

end Timbre
