import Timbre.Proofs.Stage

/-! # Sampling rates

What a stage writes has the sampling rate of what it reads: the rate goes over to the output format
before the kernel sees it, and a kernel only has to leave it there. All kernels of the library do,
and so does the one that counts. A kernel that changes the rate is not excluded; nothing is said
about the stages below it.
-/
namespace Timbre

theorem Rate.ofHz_hz (rate : Rate) : Rate.ofHz rate.hz = .ok rate := by
  unfold ofHz
  rw [dif_pos ⟨rate.minRate_le, rate.le_maxRate⟩]

namespace Format

variable {i j : Kind}

/-- The rate goes over, and nothing else does. -/
theorem takeSource_eq_ok {f f' : Format i} {source : Format j} (h : f.takeSource source = .ok f') :
    f'.rate = source.rate ∧ f'.extent = f.extent := by
  unfold takeSource samplingRate at h
  cases hrate : source.rate with
  | none =>
    rw [hrate] at h
    cases h
  | some rate =>
    rw [hrate] at h
    dsimp only [withRate] at h
    rw [Rate.ofHz_hz] at h
    cases h
    exact ⟨rfl, rfl⟩

end Format

namespace Kernel

/-- What is written has the rate of what is read, as long as it had it before. -/
def KeepsRate (k : Kernel) : Prop :=
  ∀ settings shape (input : Format k.input) (known output : Format k.output) count n,
    known.rate = input.rate →
      (k.accept settings shape input known count).answer = .ok (output, n) →
        output.rate = input.rate

section

variable {k : Kernel}

theorem keepsRate_of_known (h : ∀ settings shape (input : Format k.input)
    (known output : Format k.output) count n,
      (k.accept settings shape input known count).answer = .ok (output, n) →
        output.rate = known.rate) : k.KeepsRate :=
  fun settings shape input known output count n hknown haccept =>
    (h settings shape input known output count n haccept).trans hknown

theorem keepsRate_of_input (h : ∀ settings shape (input : Format k.input)
    (known output : Format k.output) count n,
      (k.accept settings shape input known count).answer = .ok (output, n) →
        output.rate = input.rate) : k.KeepsRate :=
  fun settings shape input known output count n _ haccept =>
    h settings shape input known output count n haccept

end

theorem keepsRate_framing : Framing.kernel.KeepsRate := by
  refine keepsRate_of_known fun settings shape input known output count n h => ?_
  obtain ⟨_, -, rfl, -⟩ := Framing.accept_eq_ok h
  rfl

theorem keepsRate_forward : Spectrum.forwardKernel.KeepsRate := by
  refine keepsRate_of_input fun settings shape input known output count n h => ?_
  obtain ⟨rfl, -⟩ := Spectrum.forward_accept_eq_ok h
  rfl

theorem keepsRate_inverse : Spectrum.inverseKernel.KeepsRate := by
  refine keepsRate_of_input fun settings shape input known output count n h => ?_
  dsimp only [Spectrum.inverseKernel] at h
  split at h
  · cases h
  · split at h
    · cases h
    · cases h
      rfl

theorem keepsRate_filterBank : FilterBank.kernel.KeepsRate := by
  refine keepsRate_of_input fun settings shape input known output count n h => ?_
  obtain ⟨-, rfl, -⟩ := FilterBank.accept_eq_ok h
  rfl

theorem keepsRate_subbands : Subbands.kernel.KeepsRate := by
  refine keepsRate_of_input fun settings shape input known output count n h => ?_
  dsimp only [Subbands.kernel, Subbands.accept] at h
  split at h
  · cases h
  · cases h
    rfl

theorem keepsRate_autocorrelation : Autocorrelation.kernel.KeepsRate := by
  refine keepsRate_of_input fun settings shape input known output count n h => ?_
  obtain ⟨rfl, -⟩ := Autocorrelation.accept_eq_ok h
  rfl

theorem keepsRate_tempo : Tempo.kernel.KeepsRate := by
  refine keepsRate_of_known fun settings shape input known output count n h => ?_
  obtain ⟨-, rfl⟩ := Tempo.accept_eq_ok h
  rfl

theorem keepsRate_counting : Counting.kernel.KeepsRate := by
  refine keepsRate_of_known fun settings shape input known output count n h => ?_
  cases h
  rfl

theorem keepsRate_of_mem_builtin {k : Kernel} (h : k ∈ builtinKernels) : k.KeepsRate := by
  simp only [builtinKernels, List.mem_cons, List.not_mem_nil, or_false] at h
  rcases h with rfl | rfl | rfl | rfl | rfl | rfl | rfl | rfl | rfl | rfl | rfl | rfl | rfl | rfl
  · exact keepsRate_of_known fun _ _ _ _ _ _ _ h => by cases h; rfl
  · exact keepsRate_framing
  · exact keepsRate_of_input fun _ _ _ _ _ _ _ h => by cases h; rfl
  · exact keepsRate_forward
  · exact keepsRate_inverse
  · exact keepsRate_of_input fun _ _ _ _ _ _ _ h => by cases h; rfl
  · exact keepsRate_of_input fun _ _ _ _ _ _ _ h => by cases h; rfl
  · exact keepsRate_of_known fun _ _ _ _ _ _ _ h => by cases h; rfl
  · exact keepsRate_of_known fun _ _ _ _ _ _ _ h => by cases h; rfl
  · exact keepsRate_of_input fun _ _ _ _ _ _ _ h => by cases h; rfl
  · exact keepsRate_filterBank
  · exact keepsRate_subbands
  · exact keepsRate_autocorrelation
  · exact keepsRate_tempo

end Kernel

namespace Stage

variable {k : Kernel} {s s' : Stage k} {f : AnyFormat} {count n : Nat} {warnings : List Warning}

theorem rate_of_takeInput {input : Format k.input} (h : s.takeInput f = .ok input) :
    input.rate = f.format.rate := by
  unfold takeInput at h
  split at h
  · split at h
    · rename_i g hg
      cases h
      obtain rfl := AnyFormat.as?_eq_some_iff.1 hg
      rfl
    · exact (Format.takeSource_eq_ok h).1
  · cases h

theorem rate_of_accept (hk : k.KeepsRate) (h : s.accept f count = ⟨s', .ok n, warnings⟩) :
    s'.output.rate = f.format.rate := by
  obtain ⟨input, known, output, hinput, hknown, hanswer, rfl⟩ := accept_eq_ok h
  have hrate := hk _ _ input known output count n (Format.takeSource_eq_ok hknown).1 hanswer
  exact hrate.trans (rate_of_takeInput hinput)

end Stage

end Timbre
