import Timbre.Proofs.Kernel.Batches
import Timbre.Proofs.Kernel.Leftovers
import Timbre.Registry

/-! # The kernels of the library

All kernels that come with the library are sound; one of them, the filter bank, asks for spectra of
bounded length. With them goes any kernel that takes everything and only counts what arrives, as
long as it is sound.
-/
namespace Timbre

def AnyFormat.points : AnyFormat → Nat
  | ⟨.array _, f⟩ => f.size
  | _ => 0

namespace Kernel

/-- The spectra of a filter bank have no more points than single precision counts exactly. -/
def Bounded (k : Kernel) (input : Format k.input) : Prop :=
  k.name = FilterBank.kernel.name → AnyFormat.points ⟨_, input⟩ ≤ 2 ^ 24

/-- The points of the spectra of a filter bank can be counted in single precision. -/
def Countable (k : Kernel) (input : Format k.input) : Prop :=
  k.name = FilterBank.kernel.name → FilterBank.Countable (AnyFormat.points ⟨_, input⟩)

/-- A sound kernel that takes anything, as one that counts does. -/
structure Wildcard (k : Kernel) : Prop where
  input_eq : k.input = .identity
  output_ne : k.output ≠ .identity
  sound : k.Sound

/-- What a pipeline relies on. -/
structure Reliable (k : Kernel) : Prop where
  input_eq : k.input = .array .int16 ∨ k.input = Signal ∨ k.input = .identity
  output_ne : k.output ≠ .identity
  soundOn : k.SoundOn k.Bounded

variable {k : Kernel}

theorem Sound.soundOn (h : k.Sound) (P : Format k.input → Prop) : k.SoundOn P :=
  fun settings input known output count n workers plan _ =>
    h settings input known output count n workers plan trivial

theorem Wildcard.reliable (h : k.Wildcard) : k.Reliable :=
  ⟨.inr (.inr h.input_eq), h.output_ne, h.sound.soundOn _⟩

theorem SoundOn.mono {P Q : Format k.input → Prop} (h : k.SoundOn P) (hPQ : ∀ f, Q f → P f) :
    k.SoundOn Q :=
  fun settings input known output count n workers plan hinput =>
    h settings input known output count n workers plan (hPQ input hinput)

theorem Bounded.countable {f : Format k.input} (h : k.Bounded f) : k.Countable f :=
  fun hname => FilterBank.countable_of_le (h hname)

theorem eq_filterBank_of_name (hk : k ∈ builtinKernels)
    (h : k.name = FilterBank.kernel.name) : k = FilterBank.kernel := by
  simp only [builtinKernels, List.mem_cons, List.not_mem_nil, or_false] at hk
  rcases hk with rfl | rfl | rfl | rfl | rfl | rfl | rfl | rfl | rfl | rfl | rfl | rfl | rfl | rfl
  all_goals first | rfl | exact absurd h (by decide)

theorem soundOn_filterBank : FilterBank.kernel.SoundOn FilterBank.kernel.Countable :=
  FilterBank.sound_kernel.mono fun _ hcountable => hcountable rfl

theorem soundOn_of_mem_builtin (h : k ∈ builtinKernels) : k.SoundOn k.Countable := by
  simp only [builtinKernels, List.mem_cons, List.not_mem_nil, or_false] at h
  rcases h with rfl | rfl | rfl | rfl | rfl | rfl | rfl | rfl | rfl | rfl | rfl | rfl | rfl | rfl
  · exact Conversion.sound_kernel.soundOn _
  · exact Framing.sound_kernel.soundOn _
  · exact Padding.sound_kernel.soundOn _
  · exact Spectrum.answering_forwardKernel.sound.soundOn _
  · exact Spectrum.answering_inverseKernel.sound.soundOn _
  · exact Power.sound_powerKernel.soundOn _
  · exact Power.sound_magnitudeKernel.soundOn _
  · exact Averages.sound_intensityKernel.soundOn _
  · exact Averages.sound_meanKernel.soundOn _
  · exact Difference.answering_kernel.sound.soundOn _
  · exact soundOn_filterBank
  · exact Subbands.sound_kernel.soundOn _
  · exact Autocorrelation.answering_kernel.sound.soundOn _
  · exact Tempo.sound_kernel.soundOn _

/-- All kernels of the library read signals but the one that makes them, and write no wildcards. -/
theorem kinds_of_mem_builtin (h : k ∈ builtinKernels) :
    (k.input = .array .int16 ∨ k.input = Signal) ∧ k.output ≠ .identity := by
  simp only [builtinKernels, List.mem_cons, List.not_mem_nil, or_false] at h
  rcases h with rfl | rfl | rfl | rfl | rfl | rfl | rfl | rfl | rfl | rfl | rfl | rfl | rfl | rfl
  · exact ⟨.inl rfl, nofun⟩
  all_goals exact ⟨.inr rfl, nofun⟩

theorem reliable_of_mem_builtin (h : k ∈ builtinKernels) : k.Reliable := by
  obtain ⟨hinput, houtput⟩ := kinds_of_mem_builtin h
  refine ⟨?_, houtput, (soundOn_of_mem_builtin h).mono fun _ => Bounded.countable⟩
  rcases hinput with hinput | hinput
  · exact .inl hinput
  · exact .inr (.inl hinput)

theorem wildcard_counting : Counting.kernel.Wildcard := ⟨rfl, nofun, Counting.sound_kernel⟩

end Kernel

end Timbre
