import Mathlib.Algebra.Group.Nat.Defs
import Timbre.Kernel.Averages
import Timbre.Kernel.Conversion
import Timbre.Kernel.Counting
import Timbre.Kernel.FilterBank
import Timbre.Kernel.Padding
import Timbre.Kernel.Power
import Timbre.Kernel.Subbands
import Timbre.Proofs.Kernel.Soundness
import Timbre.Proofs.Traversal

/-! # Soundness of kernels without scratch values

Each of these kernels writes an element from one element of its input. What they slice out of it
lies within it: the subbands because they tile it, the filters because their feet are points of the
spectrum, as long as the position of the last one is not rounded up in single precision.
-/
namespace Timbre

theorem Conversion.sound_kernel : kernel.Sound := by
  intro settings input known output count n workers plan _ haccept _
  cases haccept
  refine Stage.works_of_plain _ (plainWork_eq fun _ _ xs out => .ok (convert xs out))
    fun x _ => ⟨_, rfl, ?_⟩
  exact (Samples.size_overwrite _ _).trans Array.size_replicate

namespace Padding

theorem le_paddedSize (n : Nat) : n ≤ paddedSize n := by
  unfold paddedSize
  split
  · assumption
  · have := Nat.lt_log2_self (n := n - 1)
    rw [Nat.one_shiftLeft]
    omega

theorem pad_eq_ok {α : Type} [Zero α] {xs out : Array α} (h : xs.size ≤ out.size) :
    ∃ ys, pad xs out = .ok ys ∧ ys.size = out.size := by
  refine ⟨xs ++ (out.extract xs.size out.size).map fun _ => 0, ?_, ?_⟩
  · rw [pad, Checked.slice_eq_ok h (Nat.le_refl _)]
    rfl
  · simp
    omega

theorem sound_kernel : kernel.Sound := by
  intro settings input known output count n workers plan _ haccept _
  cases haccept
  refine Stage.works_of_plain _ (plainWork_eq fun _ _ xs out => pad xs out) fun x hx => ?_
  have hx : x.size = input.size := hx
  have hout : (input.withSize (paddedSize input.size)).newElement.size = paddedSize input.size :=
    Array.size_replicate
  have hle : x.size ≤ (input.withSize (paddedSize input.size)).newElement.size := by
    rw [hx, hout]
    exact le_paddedSize _
  obtain ⟨ys, hys, hsize⟩ := pad_eq_ok hle
  exact ⟨ys, hys, hsize.trans hout⟩

end Padding

namespace Power

theorem sound_powerKernel : powerKernel.Sound := by
  intro settings input known output count n workers plan _ haccept _
  cases haccept
  refine Stage.works_of_plain _ (plainWork_eq fun _ _ xs out => .ok (powers xs out))
    fun x _ => ⟨_, rfl, ?_⟩
  exact (Samples.size_overwrite _ _).trans Array.size_replicate

theorem sound_magnitudeKernel : magnitudeKernel.Sound := by
  intro settings input known output count n workers plan _ haccept _
  cases haccept
  refine Stage.works_of_plain _
    (plainWork_eq fun _ _ xs out => .ok (magnitudes Single.hypot xs out)) fun x _ => ⟨_, rfl, ?_⟩
  exact (Samples.size_overwrite _ _).trans Array.size_replicate

end Power

namespace Averages

theorem sound_intensityKernel : intensityKernel.Sound := by
  intro settings input known output count n workers plan _ haccept _
  cases haccept
  exact Stage.works_of_plain _
    (plainWork_eq fun _ _ xs _ => .ok (@intensity Single _ _ _ _ _ xs)) fun x _ => ⟨_, rfl, trivial⟩

theorem sound_meanKernel : meanKernel.Sound := by
  intro settings input known output count n workers plan _ haccept _
  cases haccept
  exact Stage.works_of_plain _ (plainWork_eq fun types _ xs _ => .ok (means types xs))
    fun x _ => ⟨_, rfl, trivial⟩

end Averages

theorem Counting.sound_kernel : kernel.Sound := by
  intro settings input known output count n workers plan _ haccept _
  cases haccept
  refine Stage.works_of_wholeBatch rfl fun inputs _ => ⟨⟨_, (), []⟩, rfl, ?_, fun _ _ => trivial⟩
  exact (Samples.size_overwrite _ _).trans Array.size_replicate

namespace Subbands

theorem le_of_bandsFrom {size offset last : Nat} {depths : List Nat} {bands : List Band}
    (h : bandsFrom size offset depths = .ok (bands, last)) :
    offset ≤ last ∧ ∀ b ∈ bands, b.start ≤ b.stop ∧ b.stop ≤ last := by
  induction depths generalizing offset bands with
  | nil =>
    cases h
    exact ⟨Nat.le_refl _, fun b hb => absurd hb List.not_mem_nil⟩
  | cons depth depths ih =>
    obtain ⟨w, -, h⟩ := bind_eq_ok_iff.1 h
    obtain ⟨⟨rest, last'⟩, hrest, h⟩ := bind_eq_ok_iff.1 h
    cases h
    obtain ⟨hle, hall⟩ := ih hrest
    exact ⟨by omega, List.forall_mem_cons.2 ⟨⟨by simp, hle⟩, hall⟩⟩

theorem within_of_tile {size : Nat} {depths : List Nat} {bands : List Band}
    (h : tile size depths = .ok bands) : ∀ b ∈ bands, b.start ≤ b.stop ∧ b.stop ≤ size := by
  obtain ⟨⟨bands', last⟩, hbands, h⟩ := bind_eq_ok_iff.1 h
  dsimp only at h
  split at h
  · rename_i hlast
    cases h
    exact hlast ▸ (le_of_bandsFrom hbands).2
  · cases h

theorem energies_eq_ok {α : Type} [Add α] [Mul α] [Zero α] {bands : List Band} {xs : Array α}
    (h : ∀ b ∈ bands, b.start ≤ b.stop ∧ b.stop ≤ xs.size) (out : Array α) :
    ∃ ys, energies bands xs out = .ok ys ∧ ys.size = out.size := by
  have hall : ∀ b ∈ bands.take out.size, (Checked.slice xs b.start b.stop).map Samples.energy =
      .ok (Samples.energy (xs.extract b.start b.stop)) := by
    intro b hb
    obtain ⟨hle, hstop⟩ := h b (List.mem_of_mem_take hb)
    rw [Checked.slice_eq_ok hle hstop]
    rfl
  rw [energies, mapM_eq_ok hall]
  exact ⟨_, rfl, Samples.size_overwrite _ _⟩

theorem sound_kernel : kernel.Sound := by
  intro settings input known output count n workers plan _ haccept _
  have hanswer : (accept settings [] input count).answer = .ok (output, n) := haccept
  have hshape : (kernel.accept settings kernel.shape input known count).shape =
    (accept settings [] input count).shape := rfl
  rw [hshape]
  unfold accept at hanswer ⊢
  split at hanswer
  · cases hanswer
  · rename_i bands htile
    cases hanswer
    refine Stage.works_of_plain _ (plainWork_eq fun _ bands xs out => energies bands xs out)
      fun x hx => ?_
    have hx : x.size = input.size := hx
    have hbands : ∀ b ∈ bands, b.start ≤ b.stop ∧ b.stop ≤ x.size := hx ▸ within_of_tile htile
    obtain ⟨ys, hys, hsize⟩ := energies_eq_ok hbands (input.withSize settings.length).newElement
    exact ⟨ys, hys, hsize.trans Array.size_replicate⟩

end Subbands

namespace FilterBank

/-- The position of the last point is not rounded up in single precision. -/
def Countable (size : Nat) : Prop := Rounding.index Single (size - 1) ≤ size - 1

theorem countable_of_le {size : Nat} (h : size ≤ 2 ^ 24) : Countable size := by
  have hindex : Rounding.index Single (size - 1) = size - 1 := if_pos (by omega)
  exact Nat.le_of_eq hindex

theorem clampPoint_lt {size : Nat} (hpos : 0 < size) (hsize : Countable size) (x : Single) :
    clampPoint size x < size := by
  have hlast : clampPoint size x ≤ Rounding.index Single (size - 1) := Nat.min_le_right _ _
  unfold Countable at hsize
  omega

theorem span_fst_le (scale : Scale Single) (center halfWidth : Single) (size : Nat) (df : Single) :
    (span scale center halfWidth size df).1 ≤ (span scale center halfWidth size df).2.1 := by
  unfold span
  dsimp only
  split
  · exact Nat.le_refl _
  · rename_i hlt
    exact Nat.not_lt.1 hlt

theorem span_snd_lt {size : Nat} (hpos : 0 < size) (hsize : Countable size) (scale : Scale Single)
    (center halfWidth df : Single) : (span scale center halfWidth size df).2.1 < size := by
  unfold span
  dsimp only
  split <;> exact clampPoint_lt hpos hsize _

theorem pass_eq_ok {α : Type} [Add α] [Mul α] [Zero α] {bank : Array (Filter α)} {xs : Array α}
    (h : ∀ f ∈ bank, f.start ≤ f.stop ∧ f.stop < xs.size) (out : Array α) :
    ∃ ys, pass bank xs out = .ok ys ∧ ys.size = out.size := by
  have hall : ∀ f ∈ (bank.extract 0 out.size).toList, Filter.pass xs f =
      .ok (Samples.energy (Array.zipWith (· * ·) (xs.extract f.start (f.stop + 1)) f.weights)) := by
    intro f hf
    obtain ⟨hle, hlt⟩ := h f (Samples.mem_of_mem_extract (Array.mem_toList_iff.1 hf))
    rw [Filter.pass, Checked.slice_eq_ok (by omega) (by omega)]
    rfl
  rw [pass, Array.mapM_eq_mapM_toList, mapM_eq_ok hall]
  exact ⟨_, rfl, Samples.size_overwrite _ _⟩

theorem accept_eq_ok {settings : Settings} {input output : Format Signal} {count n : Nat}
    (h : accept settings input count = .ok (output, n)) :
    input.size ≠ 0 ∧ output = input.withSize settings.number ∧ n = count := by
  obtain ⟨hz, -, h⟩ := bind_eq_ok_iff.1 h
  dsimp only at h
  split at h
  · cases h
  · split at h
    · cases h
    · rename_i hpos
      cases h
      exact ⟨hpos, rfl, rfl⟩

section Prepare

variable {settings : Settings} {input : Format Signal} {bank : Array (Filter Single)}

theorem exists_triangular_of_mem {f : Filter Single} (h : prepare settings input = .ok bank)
    (hf : f ∈ bank) : ∃ center halfWidth df : Single,
      f = .triangular settings.scale.scale settings.squared center halfWidth input.size df := by
  obtain ⟨hz, -, h⟩ := bind_eq_ok_iff.1 h
  cases h
  obtain ⟨i, rfl⟩ := Array.mem_ofFn.1 hf
  exact ⟨_, _, _, rfl⟩

theorem start_le_of_prepare (h : prepare settings input = .ok bank) :
    ∀ f ∈ bank, f.start ≤ f.stop := by
  intro f hf
  obtain ⟨center, halfWidth, df, rfl⟩ := exists_triangular_of_mem h hf
  exact span_fst_le _ center halfWidth _ df

theorem stop_lt_of_prepare (hpos : 0 < input.size) (hsize : Countable input.size)
    (h : prepare settings input = .ok bank) : ∀ f ∈ bank, f.stop < input.size := by
  intro f hf
  obtain ⟨center, halfWidth, df, rfl⟩ := exists_triangular_of_mem h hf
  exact span_snd_lt hpos hsize _ center halfWidth df

end Prepare

/-- A bank works as long as its filters stay within the spectra. -/
theorem works_of_stop_lt (settings : Settings) (input : Format Signal)
    {bank : Array (Filter Single)} (hstart : ∀ f ∈ bank, f.start ≤ f.stop)
    (hstop : ∀ f ∈ bank, f.stop < input.size) (count : Nat) :
    Stage.Works (k := kernel)
      ⟨settings, (), bank, input, input.withSize settings.number, count, true⟩ count := by
  refine Stage.works_of_perElement rfl
    (fun bank : Array (Filter Single) => ∀ f ∈ bank, f.start ≤ f.stop ∧ f.stop < Format.size input)
    (fun f hf => ⟨hstart f hf, hstop f hf⟩) fun bank x hbank hx => ?_
  have hx : x.size = input.size := hx
  obtain ⟨ys, hys, hlen⟩ := pass_eq_ok (hx ▸ hbank) (input.withSize settings.number).newElement
  exact ⟨⟨ys, bank, []⟩, bind_pure_eq_ok hys _, hlen.trans Array.size_replicate, hbank⟩

/-- The filters stay within a spectrum whose points can be counted in single precision. -/
theorem sound_kernel : kernel.SoundOn fun (input : Format Signal) => Countable input.size := by
  intro settings input known output count n workers plan hsize haccept hprepare
  obtain ⟨hpos, rfl, rfl⟩ := accept_eq_ok haccept
  exact works_of_stop_lt settings input (start_le_of_prepare hprepare)
    (stop_lt_of_prepare (Nat.pos_of_ne_zero hpos) hsize hprepare) _

end FilterBank

end Timbre
