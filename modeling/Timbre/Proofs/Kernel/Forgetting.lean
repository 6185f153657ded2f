import Timbre.Proofs.Kernel.Rates

/-! # Kernels that forget

What a kernel has accepted before leaves a shape, an output format and a plan. A kernel is forgetful
if none of these is seen again once another format is accepted and the kernel is prepared for it:
only the rate of the output format counts, which is that of the input by then, and an old plan is
kept only where work does not look at it. Main statement: `forgetful_of_mem_builtin`.
-/
namespace Timbre

namespace Format

variable {s : SampleType}

theorem withSize_congr {f g : Format (.array s)} (h : f.rate = g.rate) (n : Nat) :
    f.withSize n = g.withSize n := by
  cases f
  cases g
  cases h
  rfl

theorem eq_of_rate {f g : Format (.single s)} (h : f.rate = g.rate) : f = g := by
  cases f
  cases g
  cases h
  rfl

/-- Whether the rate of a source can be taken is a matter of the source. -/
theorem exists_takeSource {i j : Kind} {f f' : Format i} {source : Format j}
    (h : f.takeSource source = .ok f') (g : Format i) : ∃ g', g.takeSource source = .ok g' := by
  unfold takeSource at h ⊢
  cases hrate : source.samplingRate with
  | error e =>
    rw [hrate] at h
    cases h
  | ok hz =>
    rw [hrate] at h
    dsimp only [withRate] at h ⊢
    cases hz' : Rate.ofHz hz with
    | error e =>
      rw [hz'] at h
      cases h
    | ok rate => exact ⟨_, rfl⟩

end Format

namespace Samples

variable {α β σ : Type} {f : σ → α → β → Except Fault (β × σ)}

theorem zipWithM_map_state (g : σ → σ)
    (hf : ∀ s a b, f (g s) a b = (f s a b).map fun r => (r.1, g r.2)) (s : σ) (as : List α)
    (bs : List β) : zipWithM f (g s) as bs = (zipWithM f s as bs).map fun r => (r.1, g r.2) := by
  induction as generalizing bs s with
  | nil => rfl
  | cons a as ih =>
    cases bs with
    | nil => rfl
    | cons b bs =>
      rw [zipWithM, zipWithM, hf]
      cases hb : f s a b with
      | error e => rfl
      | ok r =>
        dsimp only [Except.map]
        rw [ih]
        cases zipWithM f r.2 as bs <;> rfl

end Samples

namespace Kernel

/-- Work does not look at the plan and hands it on as it is. -/
def SparesPlan (k : Kernel) (settings : k.Settings) : Prop :=
  ∀ (s : Stage k) (plan : k.Plan) inputs outputs, s.settings = settings →
    Stage.work { s with plan := plan } inputs outputs =
      (s.work inputs outputs).map fun w => { w with plan := plan }

/-- Accepting and preparing once more leave nothing of what was there before that work would see. -/
structure Forgetful (k : Kernel) : Prop where
  accept_eq : ∀ settings shape shape' input (known known' : Format k.output) count answer,
    known.rate = known'.rate → (k.accept settings shape input known count).answer = .ok answer →
      k.accept settings shape' input known' count = k.accept settings shape input known count
  prepare_eq : ∀ settings shape plan plan' input output workers p,
    k.prepare settings shape plan input output workers = .ok p →
      ∃ p', k.prepare settings shape plan' input output workers = .ok p' ∧
        (p' = p ∨ k.SparesPlan settings)

variable {k : Kernel}

theorem sparesPlan_of_perElement {settings : k.Settings}
    {run : k.Settings → k.Shape → k.Plan → k.input.Element → k.output.Element →
      Except Fault (Written k.output.Element k.Plan)} (hwork : k.work = .perElement run)
    (hrun : ∀ shape plan plan' x out, run settings shape plan' x out =
      (run settings shape plan x out).map fun w => { w with plan := plan' }) :
    k.SparesPlan settings := by
  rintro s plan inputs outputs rfl
  have hstep (p : Stage.Progress k.Plan) (x : k.input.Element) (out : k.output.Element) :
      Stage.eachStep (run s.settings s.shape) { p with plan := plan } x out =
        (Stage.eachStep (run s.settings s.shape) p x out).map
          fun r => (r.1, { r.2 with plan := plan }) := by
    rw [Stage.eachStep_eq_map, Stage.eachStep_eq_map, hrun s.shape p.plan plan]
    cases run s.settings s.shape p.plan x out <;> rfl
  unfold Stage.work
  rw [hwork]
  dsimp only
  split
  · rw [Stage.workEach_eq, Stage.workEach_eq, Samples.zipWithM_map_state
      (fun p : Stage.Progress k.Plan => { p with plan := plan }) hstep ⟨s.plan, []⟩]
    cases Samples.zipWithM (Stage.eachStep (run s.settings s.shape)) ⟨s.plan, []⟩ inputs.toList
      outputs.toList <;> rfl
  · rfl

end Kernel

namespace Difference

variable {s : Settings}

theorem prepare_of_level (h : 0 < s.level) (input output : Format Signal) (workers : Nat)
    (pool : ScratchPool (Sums Single)) :
    kernel.prepare s () pool input output workers = .ok (.ofSize workers (.ofSize input.size)) :=
  congrArg Except.ok (if_pos h)

theorem sparesPlan_of_not_level (h : ¬0 < s.level) : kernel.SparesPlan s := by
  refine Kernel.sparesPlan_of_perElement rfl ?_
  intro _ (pool : ScratchPool (Sums Single)) pool' (xs : Array Single) (out : Array Single)
  have hprocess (pool : ScratchPool (Sums Single)) : process Single.invSqrtTwo s pool xs out =
      .ok (if s.rectify then rectified (difference xs out) else difference xs out, pool) :=
    process_of_not_level Single.invSqrtTwo h xs out
  dsimp only
  rw [hprocess pool, hprocess pool']
  rfl

end Difference

namespace Kernel

variable {k : Kernel}

theorem forgetful_of_prepare (haccept : ∀ settings shape shape' input
      (known known' : Format k.output) count answer, known.rate = known'.rate →
        (k.accept settings shape input known count).answer = .ok answer →
          k.accept settings shape' input known' count = k.accept settings shape input known count)
    (hprepare : ∀ settings shape plan plan' input output workers,
      k.prepare settings shape plan' input output workers =
        k.prepare settings shape plan input output workers) : k.Forgetful := by
  refine ⟨haccept, fun settings shape plan plan' input output workers p hp => ?_⟩
  exact ⟨p, (hprepare settings shape plan plan' input output workers).trans hp, .inl rfl⟩

/-- What is accepted says nothing of what was there before, and nothing is planned. -/
theorem forgetful_of_accept (haccept : ∀ settings shape shape' input
      (known known' : Format k.output) count, known.rate = known'.rate →
        k.accept settings shape' input known' count = k.accept settings shape input known count)
    (hprepare : ∀ settings shape plan plan' input output workers,
      k.prepare settings shape plan' input output workers =
        k.prepare settings shape plan input output workers) : k.Forgetful :=
  forgetful_of_prepare (fun settings shape shape' input known known' count _ hrate _ =>
    haccept settings shape shape' input known known' count hrate) hprepare

theorem forgetful_framing : Framing.kernel.Forgetful := by
  refine forgetful_of_prepare ?_ fun _ _ _ _ _ _ _ => rfl
  intro settings shape shape' input known known' count answer hrate h
  dsimp only [Framing.kernel] at h ⊢
  split at h
  · cases h
  · rename_i hlength
    rw [if_neg hlength, if_neg hlength, Format.withSize_congr hrate]
    split at h
    · cases h
    · rfl

theorem forgetful_subbands : Subbands.kernel.Forgetful := by
  refine forgetful_of_prepare ?_ fun _ _ _ _ _ _ _ => rfl
  intro depths bands bands' input known known' count answer _ h
  dsimp only [Subbands.kernel, Subbands.accept] at h ⊢
  split at h
  · cases h
  · rfl

theorem forgetful_tempo : Tempo.kernel.Forgetful := by
  refine forgetful_of_prepare ?_ fun _ _ _ _ _ _ _ => rfl
  intro settings rate rate' input known known' count answer hrate h
  dsimp only [Tempo.kernel, Tempo.accept] at h ⊢
  split at h
  · cases h
  · rename_i hrange
    rw [if_neg hrange, if_neg hrange, Format.withSize_congr hrate]
    split at h
    · cases h
    · cases h
    · split at h
      · cases h
      · rfl

theorem forgetful_difference : Difference.kernel.Forgetful := by
  refine ⟨fun _ _ _ _ _ _ _ _ _ _ => rfl, ?_⟩
  intro settings shape pool pool' input output workers p hp
  by_cases hlevel : 0 < settings.level
  · have hpool := Difference.prepare_of_level hlevel input output workers
    exact ⟨p, (hpool pool').trans ((hpool pool).symm.trans hp), .inl rfl⟩
  · exact ⟨_, rfl, .inr (Difference.sparesPlan_of_not_level hlevel)⟩

theorem forgetful_of_mem_builtin (h : k ∈ builtinKernels) : k.Forgetful := by
  simp only [builtinKernels, List.mem_cons, List.not_mem_nil, or_false] at h
  rcases h with rfl | rfl | rfl | rfl | rfl | rfl | rfl | rfl | rfl | rfl | rfl | rfl | rfl | rfl
  any_goals exact forgetful_of_accept (fun _ _ _ _ _ _ _ _ => rfl) fun _ _ _ _ _ _ _ => rfl
  · refine forgetful_of_accept (fun _ _ _ input _ _ count hrate => ?_) fun _ _ _ _ _ _ _ => rfl
    have hformat := Format.withSize_congr hrate (Format.size input)
    exact congrArg (fun f => Acceptance.mk () (.ok (f, count)) []) hformat.symm
  · exact forgetful_framing
  · refine forgetful_of_accept (fun _ _ _ _ _ _ _ hrate => ?_) fun _ _ _ _ _ _ _ => rfl
    cases Format.eq_of_rate hrate
    rfl
  · refine forgetful_of_accept (fun _ _ _ _ _ _ _ hrate => ?_) fun _ _ _ _ _ _ _ => rfl
    cases Format.eq_of_rate hrate
    rfl
  · exact forgetful_difference
  · exact forgetful_subbands
  · exact forgetful_tempo

end Kernel

end Timbre
