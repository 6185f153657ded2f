import Timbre.Proofs.Kernel.Circular
import Timbre.Proofs.Traversal
import Timbre.Registry

/-! # The number of workers

A kernel is steady if what it writes does not depend on the number of workers that it was prepared
for. Only the sizes of the scratch pools depend on it, and of a pool between two uses only the first
slot is ever seen.
-/
namespace Timbre

namespace Samples

variable {α β σ : Type} {f : σ → α → β → Except Fault (β × σ)}

/-- Steps that answer the same from related states, and leave related states, do so together. -/
theorem exists_zipWithM_of_related (R : σ → σ → Prop)
    (hf : ∀ s s' a b b' t, R s s' → f s a b = .ok (b', t) → ∃ t', f s' a b = .ok (b', t') ∧ R t t')
    {as : List α} {bs bs' : List β} {s t : σ} (s' : σ) (hs : R s s')
    (h : zipWithM f s as bs = .ok (bs', t)) :
    ∃ t', zipWithM f s' as bs = .ok (bs', t') ∧ R t t' := by
  induction as generalizing bs bs' s s' with
  | nil =>
    cases h
    exact ⟨s', rfl, hs⟩
  | cons a as ih =>
    cases bs with
    | nil =>
      cases h
      exact ⟨s', rfl, hs⟩
    | cons b bs =>
      rw [zipWithM] at h
      cases hb : f s a b with
      | error e =>
        rw [hb] at h
        cases h
      | ok x =>
        obtain ⟨c, u⟩ := x
        rw [hb] at h
        dsimp only at h
        cases hrest : zipWithM f u as bs with
        | error e =>
          rw [hrest] at h
          cases h
        | ok x =>
          obtain ⟨cs, v⟩ := x
          rw [hrest] at h
          cases h
          obtain ⟨u', hu', hrel⟩ := hf s s' a b c u hs hb
          obtain ⟨t', ht', hrel'⟩ := ih u' hrel hrest
          refine ⟨t', ?_, hrel'⟩
          rw [zipWithM, hu']
          dsimp only
          rw [ht']

end Samples

namespace Stage

theorem exists_eachStep_of_related {In Out Plan : Type}
    {run : Plan → In → Out → Except Fault (Written Out Plan)} (R : Plan → Plan → Prop)
    (hrun : ∀ plan plan' x out w, R plan plan' → run plan x out = .ok w →
      ∃ w', run plan' x out = .ok w' ∧ w'.output = w.output ∧ R w.plan w'.plan)
    {p p' t : Progress Plan} {x : In} {out out' : Out} (hp : R p.plan p'.plan)
    (ht : eachStep run p x out = .ok (out', t)) :
    ∃ t', eachStep run p' x out = .ok (out', t') ∧ R t.plan t'.plan := by
  rw [eachStep_eq_map] at ht ⊢
  cases hw : run p.plan x out with
  | error e =>
    rw [hw] at ht
    cases ht
  | ok w =>
    rw [hw] at ht
    cases ht
    obtain ⟨w', hw', houtput, hrel⟩ := hrun p.plan p'.plan x out w hp hw
    rw [hw', ← houtput]
    exact ⟨_, rfl, hrel⟩

theorem exists_workEach_of_related {In Out Plan : Type}
    {run : Plan → In → Out → Except Fault (Written Out Plan)} (R : Plan → Plan → Prop)
    (hrun : ∀ plan plan' x out w, R plan plan' → run plan x out = .ok w →
      ∃ w', run plan' x out = .ok w' ∧ w'.output = w.output ∧ R w.plan w'.plan)
    {plan plan' : Plan} {inputs : Array In} {outputs : Array Out} {w : Written (Array Out) Plan}
    (hplan : R plan plan') (h : workEach run plan inputs outputs = .ok w) :
    ∃ w', workEach run plan' inputs outputs = .ok w' ∧ w'.output = w.output := by
  rw [workEach_eq] at h ⊢
  cases hzip : Samples.zipWithM (eachStep run) ⟨plan, []⟩ inputs.toList outputs.toList with
  | error e =>
    rw [hzip] at h
    cases h
  | ok r =>
    rw [hzip] at h
    cases h
    obtain ⟨p', hzip', -⟩ := Samples.exists_zipWithM_of_related (f := eachStep run)
      (fun p p' : Progress Plan => R p.plan p'.plan)
      (fun _ _ _ _ _ _ hp ht => exists_eachStep_of_related R hrun hp ht) ⟨plan', []⟩ hplan hzip
    rw [hzip']
    exact ⟨_, rfl, rfl⟩

end Stage

namespace Kernel

/-- What a stage writes does not depend on the number of workers. -/
def Steady (k : Kernel) : Prop :=
  ∀ (s t : Stage k) (workers workers' : Nat), s.prepare workers = .ok t →
    ∃ plan, s.prepare workers' = .ok { t with plan := plan } ∧
      ∀ inputs outputs w, t.work inputs outputs = .ok w →
        ∃ w', Stage.work { t with plan := plan } inputs outputs = .ok w' ∧ w'.output = w.output

variable {k : Kernel}

theorem steady_of_prepare
    (h : ∀ settings shape plan input output workers workers',
      k.prepare settings shape plan input output workers =
        k.prepare settings shape plan input output workers') : k.Steady := by
  intro s t workers workers' ht
  refine ⟨t.plan, ?_, fun inputs outputs w hw => ⟨w, hw, rfl⟩⟩
  rw [← ht, Stage.prepare, Stage.prepare, h _ _ _ _ _ (max workers' 1) (max workers 1)]

theorem steady_of_perElement
    {run : k.Settings → k.Shape → k.Plan → k.input.Element → k.output.Element →
      Except Fault (Written k.output.Element k.Plan)}
    (hwork : k.work = .perElement run) (R : k.Plan → k.Plan → Prop)
    (hprepare : ∀ settings shape plan input output workers workers' p,
      k.prepare settings shape plan input output workers = .ok p →
        ∃ p', k.prepare settings shape plan input output workers' = .ok p' ∧ R p p')
    (hrun : ∀ settings shape plan plan' x out w, R plan plan' →
      run settings shape plan x out = .ok w →
        ∃ w', run settings shape plan' x out = .ok w' ∧ w'.output = w.output ∧ R w.plan w'.plan) :
    k.Steady := by
  intro s t workers workers' ht
  obtain ⟨p, hp, rfl⟩ := Stage.prepare_eq_ok ht
  obtain ⟨p', hp', hrel⟩ := hprepare _ _ _ _ _ _ (max workers' 1) _ hp
  refine ⟨p', ?_, fun inputs outputs w hw => ?_⟩
  · unfold Stage.prepare
    rw [hp']
  · unfold Stage.work at hw ⊢
    rw [hwork] at hw ⊢
    dsimp only at hw ⊢
    split at hw
    · rename_i hsize
      rw [if_pos hsize]
      obtain ⟨w', hw', houtput⟩ := Stage.exists_workEach_of_related R
        (hrun s.settings s.shape) hrel (mapError_eq_ok_iff.1 hw)
      exact ⟨w', mapError_eq_ok_iff.2 hw', houtput⟩
    · cases hw

end Kernel

namespace Spectrum

variable {α β : Type} {plan other : Plan α}

theorem forward_same [Zero α] (h : plan.Same other) {xs out ys : Array α} {plan' : Plan α}
    (hrun : forward plan xs out = .ok (ys, plan')) :
    ∃ other', forward other xs out = .ok (ys, other') ∧ plan'.Same other' := by
  obtain ⟨transform, pool⟩ := plan
  obtain ⟨transform', pool'⟩ := other
  obtain rfl : transform = transform' := h.transform_eq
  exact h.exists_run hrun

theorem inverse_same [Zero α] [One α] [Neg α] [Mul α] [Div α] [NatCast α] (h : plan.Same other)
    {xs out ys : Array α} {plan' : Plan α} (hrun : inverse plan xs out = .ok (ys, plan')) :
    ∃ other', inverse other xs out = .ok (ys, other') ∧ plan'.Same other' := by
  obtain ⟨transform, pool⟩ := plan
  obtain ⟨transform', pool'⟩ := other
  obtain rfl : transform = transform' := h.transform_eq
  exact h.exists_run hrun

/-- Both plans are there, and they are for one transform. -/
def SamePlans (plan other : Option (Plan α)) : Prop :=
  ∃ p q, plan = some p ∧ other = some q ∧ p.Same q

theorem planned_same {k : Kernel} {run : k.Settings → k.Shape → Option (Plan α) →
    k.input.Element → k.output.Element → Except Fault (Written k.output.Element (Option (Plan α)))}
    (f : Plan α → k.input.Element → k.output.Element → Except Fault (k.output.Element × Plan α))
    (hf : ∀ {plan other : Plan α}, plan.Same other → ∀ {xs out ys plan'},
      f plan xs out = .ok (ys, plan') →
        ∃ other', f other xs out = .ok (ys, other') ∧ plan'.Same other')
    (hrun : ∀ settings shape plan xs out, run settings shape (some plan) xs out =
      (f plan xs out).map fun y => ⟨y.1, some y.2, []⟩)
    (settings : k.Settings) (shape : k.Shape) (plan other : Option (Plan α)) (xs : k.input.Element)
    (out : k.output.Element) (w : Written k.output.Element (Option (Plan α)))
    (h : SamePlans plan other) (hw : run settings shape plan xs out = .ok w) :
    ∃ w', run settings shape other xs out = .ok w' ∧ w'.output = w.output ∧
      SamePlans w.plan w'.plan := by
  obtain ⟨p, q, rfl, rfl, hsame⟩ := h
  rw [hrun] at hw ⊢
  cases hp : f p xs out with
  | error e =>
    rw [hp] at hw
    cases hw
  | ok y =>
    rw [hp] at hw
    cases hw
    obtain ⟨q', hq, hsame'⟩ := hf hsame hp
    rw [hq]
    exact ⟨_, rfl, rfl, y.2, q', rfl, rfl, hsame'⟩

theorem steady_forwardKernel : forwardKernel.Steady := by
  obtain ⟨run, hwork, hrun⟩ := planned_eq (k := Signal) "RDFT" forward
  refine Kernel.steady_of_perElement hwork SamePlans ?_
    (planned_same (k := forwardKernel) forward forward_same hrun)
  intro settings shape plan input output workers workers' p hp
  cases hp
  exact ⟨_, rfl, _, _, rfl, rfl, Plan.same_ofLength _ _ _ _⟩

theorem steady_inverseKernel : inverseKernel.Steady := by
  obtain ⟨run, hwork, hrun⟩ := planned_eq (k := Signal) "RDFTInverse" inverse
  refine Kernel.steady_of_perElement hwork SamePlans ?_
    (planned_same (k := inverseKernel) inverse inverse_same hrun)
  intro settings shape plan input output workers workers' p hp
  cases hp
  exact ⟨_, rfl, _, _, rfl, rfl, Plan.same_ofLength _ _ _ _⟩

end Spectrum

namespace Autocorrelation

variable {α β : Type} {plan other : Plan β}

theorem correlate_same [Zero β] [One β] [Add β] [Mul β] [Div β] [NatCast β] {widen : α → β}
    {narrow : β → α} (h : plan.Same other) {xs out ys : Array α} {plan' : Plan β}
    (hrun : correlate widen narrow plan xs out = .ok (ys, plan')) :
    ∃ other', correlate widen narrow other xs out = .ok (ys, other') ∧ plan'.Same other' := by
  obtain ⟨transform, pool⟩ := plan
  obtain ⟨transform', pool'⟩ := other
  obtain rfl : transform = transform' := h.transform_eq
  exact h.exists_run hrun

theorem steady_kernel : kernel.Steady := by
  obtain ⟨run, hwork, hrun⟩ := Spectrum.planned_eq (k := Signal) "Autocorrelation"
    (correlate Single.toDouble Single.ofDouble)
  refine Kernel.steady_of_perElement hwork Spectrum.SamePlans ?_
    (Spectrum.planned_same (k := kernel) (correlate Single.toDouble Single.ofDouble)
      correlate_same hrun)
  intro settings shape plan input output workers workers' p hp
  cases hp
  exact ⟨_, rfl, _, _, rfl, rfl, Plan.same_ofLength _ _ _ _⟩

end Autocorrelation

namespace Difference

variable {s : Settings} {pool other : ScratchPool (Sums Single)}

/-- One pool, or two that the next use sees the same sums in. -/
def SamePools (pool other : ScratchPool (Sums Single)) : Prop :=
  pool = other ∨ ∃ sums, pool.Front sums ∧ other.Front sums

theorem process_same (h : SamePools pool other) {c : Single} {xs out ys : Array Single}
    {pool' : ScratchPool (Sums Single)} (hprocess : process c s pool xs out = .ok (ys, pool')) :
    ∃ other', process c s other xs out = .ok (ys, other') ∧ SamePools pool' other' := by
  rcases h with rfl | ⟨sums, hfront, hfront'⟩
  · exact ⟨pool', hprocess, .inl rfl⟩
  · by_cases hlevel : 0 < s.level
    · rw [process_of_level _ hlevel hfront.firstFree?_eq] at hprocess
      rw [process_of_level _ hlevel hfront'.firstFree?_eq]
      cases hdetail : waveletDetail c s.level xs out sums with
      | error e =>
        rw [hdetail] at hprocess
        cases hprocess
      | ok r =>
        rw [hdetail] at hprocess
        cases hprocess
        exact ⟨_, rfl, .inr ⟨r.2, hfront.setSlot _, hfront'.setSlot _⟩⟩
    · rw [process_of_not_level _ hlevel] at hprocess
      cases hprocess
      exact ⟨other, process_of_not_level _ hlevel xs out, .inr ⟨sums, hfront, hfront'⟩⟩

theorem prepare_same {pool' : ScratchPool (Sums Single)} {input output : Format Signal}
    {workers : Nat} (h : kernel.prepare s () pool input output workers = .ok pool')
    (workers' : Nat) : ∃ other', kernel.prepare s () pool input output workers' = .ok other' ∧
      SamePools pool' other' := by
  have hpool : (if 0 < s.level then .ofSize workers (.ofSize input.size) else pool) = pool' :=
    Except.ok.inj h
  refine ⟨_, rfl, ?_⟩
  subst hpool
  split
  · exact .inr ⟨_, ScratchPool.front_ofSize _ _, ScratchPool.front_ofSize _ _⟩
  · exact .inl rfl

theorem steady_kernel : kernel.Steady := by
  refine Kernel.steady_of_perElement rfl SamePools (fun _ _ _ _ _ _ workers' _ hp =>
    prepare_same hp workers') fun settings shape pool other xs out w hsame hw => ?_
  have hbind : (process Single.invSqrtTwo settings pool xs out >>=
      fun r => pure ⟨r.1, r.2, []⟩) = .ok w := hw
  cases hprocess : process Single.invSqrtTwo settings pool xs out with
  | error e =>
    rw [hprocess] at hbind
    cases hbind
  | ok r =>
    rw [hprocess] at hbind
    cases hbind
    obtain ⟨other', hother, hsame'⟩ := process_same hsame hprocess
    exact ⟨⟨r.1, other', []⟩, bind_pure_eq_ok hother _, rfl, hsame'⟩

end Difference

namespace Kernel

variable {k : Kernel}

theorem steady_of_mem_builtin (h : k ∈ builtinKernels) : k.Steady := by
  simp only [builtinKernels, List.mem_cons, List.not_mem_nil, or_false] at h
  rcases h with rfl | rfl | rfl | rfl | rfl | rfl | rfl | rfl | rfl | rfl | rfl | rfl | rfl | rfl
  · exact steady_of_prepare fun _ _ _ _ _ _ _ => rfl
  · exact steady_of_prepare fun _ _ _ _ _ _ _ => rfl
  · exact steady_of_prepare fun _ _ _ _ _ _ _ => rfl
  · exact Spectrum.steady_forwardKernel
  · exact Spectrum.steady_inverseKernel
  · exact steady_of_prepare fun _ _ _ _ _ _ _ => rfl
  · exact steady_of_prepare fun _ _ _ _ _ _ _ => rfl
  · exact steady_of_prepare fun _ _ _ _ _ _ _ => rfl
  · exact steady_of_prepare fun _ _ _ _ _ _ _ => rfl
  · exact Difference.steady_kernel
  · exact steady_of_prepare fun _ _ _ _ _ _ _ => rfl
  · exact steady_of_prepare fun _ _ _ _ _ _ _ => rfl
  · exact Autocorrelation.steady_kernel
  · exact steady_of_prepare fun _ _ _ _ _ _ _ => rfl

end Kernel

end Timbre
