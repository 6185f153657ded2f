import Timbre.Proofs.Kernel.Answers
import Timbre.Proofs.Kernel.Circular

/-! # Kernels with scratch values

The transforms run in a buffer of the length that they were prepared for, and the wavelet detail in
two arrays of sums. Each of these kernels has one answer for each element, which is the same with
any refill of its scratch values: the lengths stay, and all else may be replaced. So they are sound,
they write over their outputs and they separate pieces as the other kernels do.
-/
namespace Timbre

namespace Spectrum

variable {α : Type} {transform : Array (Bin α) → Array (Bin α)} {n : Nat}

/-- Both plans are there, for one transform and with buffers of one length. -/
def Refilled (plan other : Option (Plan α)) : Prop :=
  ∃ p q, plan = some p ∧ other = some q ∧ p.Refilled q

theorem refilled_ofLength [Zero α] (n workers workers' : Nat) :
    Refilled (some (.ofLength transform n workers)) (some (.ofLength transform n workers')) :=
  ⟨_, _, rfl, rfl, (Plan.supplied_ofLength transform n workers).refilled_iff.2
    (Plan.supplied_ofLength transform n workers')⟩

theorem planned_yields {Settings Shape In Out : Type}
    {run : Settings → Shape → Option (Plan α) → In → Out →
      Except Fault (Written Out (Option (Plan α)))}
    {f : Plan α → In → Out → Except Fault (Out × Plan α)} {Good : Out → Prop} {x : In} {y : Out}
    (hrun : ∀ settings shape plan x out, run settings shape (some plan) x out =
      (f plan x out).map fun y => ⟨y.1, some y.2, []⟩)
    {plan : Plan α} (hplan : plan.Supplied transform n)
    (hf : ∀ (p : Plan α) out, p.Supplied transform n → Good out →
      ∃ p', f p x out = .ok (y, p') ∧ p'.Supplied transform n)
    (settings : Settings) (shape : Shape) :
    Yields (run settings shape) (Refilled (some plan)) Good x y := by
  rintro _ out ⟨_, p, hsame, rfl, hp⟩ hout
  cases hsame
  obtain ⟨p', hp', hsupplied⟩ := hf p out (hplan.refilled_iff.1 hp) hout
  refine ⟨some p', ?_, plan, p', rfl, rfl, hplan.refilled_iff.2 hsupplied⟩
  rw [hrun, hp']
  rfl

theorem answering_forwardKernel : forwardKernel.Answering fun _ => Refilled := by
  obtain ⟨run, hwork, hrun⟩ := planned_eq (k := Signal) "RDFT" forward
  refine ⟨fun _ _ _ _ _ _ => ⟨_, rfl⟩, ?_, run, hwork, ?_⟩
  · intro settings shape before input output workers plan workers' hprepare
    cases hprepare
    exact ⟨_, rfl, refilled_ofLength _ _ _⟩
  · intro settings shape before input known output count n workers plan haccept hprepare
    obtain ⟨rfl, heven, hpos, rfl⟩ := forward_accept_eq_ok haccept
    cases hprepare
    refine ⟨rfl, fun xs hxs => ?_⟩
    obtain ⟨ys, hsize, hys⟩ :=
      exists_forward (Fourier.size_transform .forward) heven hpos hxs
    exact ⟨ys, hsize, planned_yields hrun (Plan.supplied_ofLength _ _ _) hys _ _⟩

theorem answering_inverseKernel : inverseKernel.Answering fun _ => Refilled := by
  obtain ⟨run, hwork, hrun⟩ := planned_eq (k := Signal) "RDFTInverse" inverse
  refine ⟨fun _ _ _ _ _ _ => ⟨_, rfl⟩, ?_, run, hwork, ?_⟩
  · intro settings shape before input output workers plan workers' hprepare
    cases hprepare
    exact ⟨_, rfl, refilled_ofLength _ _ _⟩
  · intro settings shape before input known output count n workers plan haccept hprepare
    obtain ⟨hsize, heven, hpos, rfl⟩ := inverse_accept_eq_ok haccept
    cases hprepare
    refine ⟨rfl, fun xs hxs => ?_⟩
    obtain ⟨ys, hsize, hys⟩ :=
      exists_inverse (Fourier.size_transform .inverse) heven hpos (Eq.trans hxs hsize)
    exact ⟨ys, hsize, planned_yields hrun (Plan.supplied_ofLength _ _ _) hys _ _⟩

theorem passesCount_forwardKernel : forwardKernel.PassesCount := by
  intro settings input known output count n h
  dsimp only [forwardKernel] at h ⊢
  split at h
  · cases h
  · cases h
    exact ⟨rfl, fun m => ⟨rfl, rfl⟩⟩

theorem passesCount_inverseKernel : inverseKernel.PassesCount := by
  intro settings input known output count n h
  dsimp only [inverseKernel] at h ⊢
  split at h
  · cases h
  · split at h
    · cases h
    · cases h
      exact ⟨rfl, fun m => ⟨rfl, rfl⟩⟩

end Spectrum

namespace Autocorrelation

theorem answering_kernel : kernel.Answering fun _ => Spectrum.Refilled := by
  obtain ⟨run, hwork, hrun⟩ := Spectrum.planned_eq (k := Signal) "Autocorrelation"
    (correlate Single.toDouble Single.ofDouble)
  refine ⟨fun _ _ _ _ _ _ => ⟨_, rfl⟩, ?_, run, hwork, ?_⟩
  · intro settings shape before input output workers plan workers' hprepare
    cases hprepare
    exact ⟨_, rfl, Spectrum.refilled_ofLength _ _ _⟩
  · intro settings shape before input known output count n workers plan haccept hprepare
    obtain ⟨rfl, rfl⟩ := accept_eq_ok haccept
    cases hprepare
    refine ⟨rfl, fun xs hxs => ?_⟩
    have hsize : xs.size = input.size := hxs
    have hroom : xs.size ≤ Padding.paddedSize (input.size * 2 - 1) := by
      have := Padding.le_paddedSize (input.size * 2 - 1)
      omega
    obtain ⟨ys, hys, hcorrelate⟩ := exists_correlate Single.toDouble Single.ofDouble
      (Fourier.size_transform .forward) hroom
    rw [hsize] at hys hcorrelate
    exact ⟨ys, hys, Spectrum.planned_yields hrun (Plan.supplied_ofLength _ _ _) hcorrelate _ _⟩

theorem passesCount_kernel : kernel.PassesCount := by
  intro settings input known output count n h
  dsimp only [kernel] at h ⊢
  split at h
  · cases h
  · rename_i hsize
    split at h
    · cases h
    · cases h
      exact ⟨rfl, fun m => by rw [if_neg hsize, if_neg hsize]; exact ⟨rfl, rfl⟩⟩

end Autocorrelation

namespace Difference

/-- If there is a level to compute, the next uses of the two pools take sums of the same lengths. -/
def Refilled (s : Settings) (pool other : ScratchPool (Sums Single)) : Prop :=
  0 < s.level → pool.Refilled Sums.sizes other

theorem refilled_iff {s : Settings} {n : Nat} {pool other : ScratchPool (Sums Single)}
    (h : Supplied s n pool) : Refilled s pool other ↔ Supplied s n other :=
  forall_congr' fun hlevel => ScratchPool.refilled_iff (h hlevel)

theorem supplied_of_prepare {s : Settings} {pool pool' : ScratchPool (Sums Single)}
    {input output : Format Signal} {workers : Nat}
    (h : kernel.prepare s () pool input output workers = .ok pool') :
    Supplied s input.size pool' := by
  intro hlevel
  have hpool : (if 0 < s.level then .ofSize workers (.ofSize input.size) else pool) = pool' :=
    Except.ok.inj h
  rw [if_pos hlevel] at hpool
  subst hpool
  exact supplied_ofSize s input.size workers hlevel

/-- With every refill of its pool the kernel writes the formula at every place of an element. -/
theorem exists_yields : ∃ run, kernel.work = .perElement run ∧
    ∀ settings shape n (pool : ScratchPool (Sums Single)), Supplied settings n pool →
      ∀ xs : Array Single, xs.size = n → Yields (run settings shape) (Refilled settings pool)
        (fun out : Array Single => out.size = n) xs
        (everywhere (formula Single.invSqrtTwo settings) xs) := by
  refine ⟨_, rfl, fun settings shape n pool hpool xs hxs other out hother hout => ?_⟩
  obtain ⟨left, hleft, hsupplied⟩ :=
    process_eq_ok Single.invSqrtTwo hxs ((refilled_iff hpool).1 hother) hout
  exact ⟨left, bind_pure_eq_ok hleft _, (refilled_iff hpool).2 hsupplied⟩

theorem answering_kernel : kernel.Answering Refilled := by
  obtain ⟨run, hwork, hyields⟩ := exists_yields
  refine ⟨fun _ _ _ _ _ _ => ⟨_, rfl⟩, ?_, run, hwork, ?_⟩
  · intro settings shape before input output workers plan workers' hprepare
    have hprepare' : kernel.prepare settings shape before input output workers' = .ok _ := rfl
    exact ⟨_, hprepare', (refilled_iff (supplied_of_prepare hprepare)).2
      (supplied_of_prepare hprepare')⟩
  · intro settings shape before input known output count n workers plan haccept hprepare
    cases haccept
    exact ⟨rfl, fun xs hxs => ⟨_, (size_everywhere _ xs).trans hxs,
      hyields settings shape input.size plan (supplied_of_prepare hprepare) xs hxs⟩⟩

theorem passesCount_kernel : kernel.PassesCount := by
  intro settings input known output count n h
  cases h
  exact ⟨rfl, fun m => ⟨rfl, rfl⟩⟩

end Difference

end Timbre
