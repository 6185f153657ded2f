import Timbre.Proofs.Kernel.Batches
import Timbre.Proofs.Kernel.Leftovers
import Timbre.Registry

/-! # Frames and groups of several signals

The number of elements changes where frames are cut or groups are searched. The output is cut into
one piece for each signal, so a piece holds the frames of this signal; the input is cut into groups,
and since every signal brings whole groups, no group goes from one signal over to the next. With
that all kernels of the library separate signals.
-/
namespace Timbre

namespace Samples

variable {α : Type} {n : Nat}

theorem chunks_append {xs : Array α} {count : Nat} (hn : 0 < n) (h : xs.size = count * n)
    (ys : Array α) : chunks n (xs ++ ys) = chunks n xs ++ chunks n ys := by
  have hlength : (xs.size + (n - 1)) / n = count := by
    have := length_chunks hn h
    rwa [chunks, List.length_map, List.length_range] at this
  have hboth : ((xs ++ ys).size + (n - 1)) / n = count + (ys.size + (n - 1)) / n := by
    rw [Array.size_append, h, Nat.add_assoc, Nat.mul_comm, Nat.mul_add_div hn]
  unfold chunks
  rw [hboth, hlength, List.range_add, List.map_append, List.map_map]
  congr 1
  · apply List.map_congr_left
    intro i hi
    have hroom : (i + 1) * n ≤ count * n := Nat.mul_le_mul_right n (List.mem_range.1 hi)
    rw [Nat.succ_mul, ← h] at hroom
    have hempty : ys.extract (i * n - xs.size) (i * n + n - xs.size) = #[] :=
      Array.extract_empty_of_stop_le_start (by omega)
    rw [Array.extract_append, hempty, Array.append_empty]
  · apply List.map_congr_left
    intro i _
    have hplace : (count + i) * n = xs.size + i * n := by rw [Nat.add_mul, h]
    have hempty : xs.extract (xs.size + i * n) (xs.size + i * n + n) = #[] :=
      Array.extract_empty_of_size_le_start (Nat.le_add_right _ _)
    rw [Function.comp_apply, hplace, Array.extract_append, hempty, Array.empty_append,
      Nat.add_assoc, Nat.add_sub_cancel_left, Nat.add_sub_cancel_left]

theorem chunks_flatten (hn : 0 < n) {arrays : List (Array α)}
    (h : ∀ xs ∈ arrays, ∃ count, xs.size = count * n) :
    chunks n arrays.toArray.flatten = arrays.flatMap (chunks n) := by
  induction arrays with
  | nil =>
    have hlt : n - 1 < n := by omega
    simp [chunks, hlt]
  | cons xs arrays ih =>
    obtain ⟨count, hcount⟩ := h xs List.mem_cons_self
    rw [flatten_cons, chunks_append hn hcount, List.flatMap_cons,
      ih fun ys hys => h ys (List.mem_cons_of_mem _ hys)]

theorem chunks_replicate (hn : 0 < n) (count : Nat) (x : α) :
    chunks n (Array.replicate (count * n) x) = List.replicate count (Array.replicate n x) := by
  have hsize : (Array.replicate (count * n) x).size = count * n := Array.size_replicate
  rw [List.eq_replicate_iff]
  refine ⟨length_chunks hn hsize, fun piece hpiece => ?_⟩
  rw [Array.eq_replicate_iff]
  refine ⟨size_of_mem_chunks hn hsize piece hpiece, fun y hy => ?_⟩
  exact (Array.mem_replicate.1 (mem_of_mem_chunks hpiece y hy)).2

end Samples

namespace Framing

variable {s : Settings} {n : Nat}

/-- Over fresh frames each signal is framed on its own. -/
theorem frames_eq_ok_iff (hn : 0 < n) (window : Array Single) {signals : Array (Array Single)}
    {total : Nat} (htotal : total = signals.size * n) {blank : Array Single}
    {ys : Array (Array Single)} :
    frames s n window signals (Array.replicate total blank) = .ok ys ↔
      ∃ ls, List.Forall₂
        (fun signal l => framesOf s window signal (List.replicate n blank) = .ok l)
          signals.toList ls ∧ ys = ls.flatten.toArray := by
  have hzip (ls : List (List (Array Single))) := Samples.exists_zipWithM_unit_iff
    (f := fun _ signal piece => return (← framesOf s window signal piece, ()))
    (R := fun signal l => framesOf s window signal (List.replicate n blank) = .ok l)
    signals.toList (List.replicate n blank) ls fun signal _ y => by
      cases framesOf s window signal (List.replicate n blank) <;>
        simp [bind, Except.bind, pure, Except.pure]
  unfold frames
  rw [Nat.max_eq_left hn, htotal, Samples.chunks_replicate hn, List.map_replicate,
    Array.toList_replicate, ← Array.length_toList]
  simp only [bind_eq_ok_iff, ← hzip]
  constructor
  · rintro ⟨⟨ls, t⟩, hls, hys⟩
    cases hys
    exact ⟨ls, ⟨t, hls⟩, rfl⟩
  · rintro ⟨ls, ⟨t, hls⟩, rfl⟩
    exact ⟨(ls, t), hls, rfl⟩

theorem separable_kernel : kernel.Separable := by
  refine ⟨fun settings input known output count total m haccept => ?_,
    fun settings input known output count total workers haccept => ?_⟩
  · obtain ⟨n, hframes, rfl, rfl⟩ := accept_eq_ok haccept
    have hcount := accept_eq hframes kernel.shape known count
    have htimes := accept_eq hframes kernel.shape known (m * count)
    rw [htimes, hcount, Nat.mul_assoc]
    exact ⟨rfl, rfl⟩
  · refine ⟨coefficients settings, rfl, ?_, fun xs ys =>
      sound_kernel.fitting settings input known output count total workers _ haccept rfl xs ys⟩
    obtain ⟨n, hframes, rfl, rfl⟩ := accept_eq_ok haccept
    obtain ⟨-, hn⟩ := frameCount_eq_ok hframes
    have hshape : (kernel.accept settings kernel.shape input known count).shape = n :=
      congrArg Acceptance.shape (accept_eq hframes kernel.shape known count)
    rw [hshape]
    refine Stage.writes_flatten_of_items Array.toList (fun signal l =>
      framesOf settings (coefficients settings) signal
        (List.replicate n (known.withSize settings.length).newElement) = .ok l) ?_ ?_
    · intro pieces _
      rw [Array.toList_flatten, List.flatMap_def]
    · intro m xs hxs ys
      have hcount : m * (count * n) = xs.size * n := by rw [hxs.1, Nat.mul_assoc]
      have hpos : 0 < n := hn ▸ Nat.succ_pos _
      refine (Stage.writes_iff_of_wholeBatch rfl).trans
        (Iff.trans ?_ (frames_eq_ok_iff hpos (coefficients settings) hcount))
      constructor
      · rintro ⟨w, hw, rfl⟩
        obtain ⟨out, hout, hw⟩ := bind_eq_ok_iff.1 hw
        cases hw
        exact hout
      · intro hout
        exact ⟨_, bind_pure_eq_ok hout _, rfl⟩

end Framing

namespace Tempo

variable {s : Settings Single}

/-- Over fresh outputs each group is searched on its own. -/
theorem work_eq_ok_iff (rate : Single) {signals : Array (Array Single)} {total : Nat}
    (hbands : 0 < s.bands) (htotal : signals.size = total * s.bands)
    {blank : Array (Vector Single 2)} {ys : Array (Array (Vector Single 2))} :
    work s rate signals (Array.replicate total blank) = .ok ys ↔
      List.Forall₂ (fun group y => ∃ peaks, analyze s rate group = .ok peaks ∧
        report peaks blank = y) ((Samples.chunks s.bands signals).map Array.toList) ys.toList := by
  have hlength : ((Samples.chunks s.bands signals).map Array.toList).length = total := by
    rw [List.length_map, Samples.length_chunks hbands htotal]
  have hzip (outs : List (Array (Vector Single 2))) := Samples.exists_zipWithM_unit_iff
    (f := fun _ group out => return (report (← analyze s rate group) out, ()))
    (R := fun group y => ∃ peaks, analyze s rate group = .ok peaks ∧ report peaks blank = y)
    ((Samples.chunks s.bands signals).map Array.toList) blank outs fun group _ y => by
      cases analyze s rate group <;> simp [bind, Except.bind, pure, Except.pure]
  unfold work
  rw [Array.toList_replicate, ← hzip, hlength]
  simp only [bind_eq_ok_iff]
  constructor
  · rintro ⟨⟨outs, t⟩, houts, hys⟩
    cases hys
    exact ⟨t, houts⟩
  · rintro ⟨t, houts⟩
    exact ⟨(ys.toList, t), houts, rfl⟩

theorem separable_kernel : kernel.Separable := by
  refine ⟨fun settings input known output count n m haccept => ?_,
    fun settings input known output count n workers haccept => ?_⟩
  · obtain ⟨⟨hz, haccepts⟩, rfl⟩ := accept_eq_ok haccept
    have htimes : Accepts settings input hz (m * count) (m * n) :=
      { haccepts with count_eq := by rw [haccepts.count_eq, Nat.mul_assoc] }
    have hcount := haccepts.accept_eq kernel.shape known
    have hmany := htimes.accept_eq kernel.shape known
    exact ⟨congrArg Acceptance.answer hmany,
      (congrArg Acceptance.shape hmany).trans (congrArg Acceptance.shape hcount).symm⟩
  · refine ⟨(), rfl, ?_, fun xs ys =>
      sound_kernel.fitting settings input known output count n workers () haccept rfl xs ys⟩
    obtain ⟨⟨hz, haccepts⟩, -⟩ := accept_eq_ok haccept
    have hcount := haccepts.count_eq
    refine Stage.writes_flatten_of_singles
      (fun xs => (Samples.chunks settings.bands xs).map Array.toList)
      (fun group y => ∃ peaks, analyze settings
        (kernel.accept settings kernel.shape input known count).shape group = .ok peaks ∧
          report peaks output.newElement = y) ?_ ?_
    · intro pieces hpieces
      have hwhole : ∀ p ∈ pieces, ∃ groups, p.size = groups * settings.bands :=
        fun p hp => ⟨n, (hpieces p hp).1.trans hcount⟩
      rw [Samples.chunks_flatten haccepts.bands_pos hwhole, List.map_flatMap]
    · intro m xs hxs ys
      have htotal : xs.size = (m * n) * settings.bands := by
        rw [hxs.1, hcount, Nat.mul_assoc]
      refine (Stage.writes_iff_of_wholeBatch rfl).trans
        (Iff.trans ?_ (work_eq_ok_iff _ haccepts.bands_pos htotal))
      constructor
      · rintro ⟨w, hw, rfl⟩
        obtain ⟨out, hout, hw⟩ := bind_eq_ok_iff.1 hw
        cases hw
        exact hout
      · intro hout
        exact ⟨_, bind_pure_eq_ok hout _, rfl⟩

end Tempo

namespace FilterBank

theorem passesCount_kernel : kernel.PassesCount := by
  intro settings input known output count n h
  obtain ⟨-, -, rfl⟩ := accept_eq_ok h
  refine ⟨rfl, fun m => ⟨?_, rfl⟩⟩
  obtain ⟨hz, hhz, h⟩ := bind_eq_ok_iff.1 h
  refine bind_eq_ok_iff.2 ⟨hz, hhz, ?_⟩
  dsimp only at h ⊢
  split at h
  · cases h
  · split at h
    · cases h
    · rename_i hrange hpos
      cases h
      rw [if_neg hrange, if_neg hpos]
      rfl

theorem size_of_pass {α : Type} [Add α] [Mul α] [Zero α] {bank : Array (Filter α)}
    {xs out ys : Array α} (h : pass bank xs out = .ok ys) : ys.size = out.size := by
  unfold pass at h
  cases hpassed : (bank.extract 0 out.size).mapM (Filter.pass xs) with
  | error e =>
    rw [hpassed] at h
    cases h
  | ok energies =>
    rw [hpassed] at h
    cases h
    exact Samples.size_overwrite _ _

theorem sameOver_pass (bank : Array (Filter Single)) (xs out : Array Single) :
    SameOver (fun p xs out => pass p xs out >>= fun ys => pure ⟨ys, p, []⟩) (· = bank) out xs := by
  rintro _ _ rfl rfl w hw
  refine ⟨?_, w, hw, rfl⟩
  obtain ⟨ys, -, hys⟩ := bind_eq_ok_iff.1 hw
  cases hys
  rfl

theorem fitting_kernel : kernel.Fitting := by
  intro settings input known output count n workers bank haccept hprepare xs ys hxs hys
  obtain ⟨-, rfl, rfl⟩ := accept_eq_ok haccept
  refine Stage.fits_of_perElement rfl ?_ (fun x _ => sameOver_pass bank x _) (fun x w hw => ?_)
    hxs hys
  · rfl
  · obtain ⟨out, hout, hw⟩ := bind_eq_ok_iff.1 hw
    cases hw
    exact (size_of_pass hout).trans Array.size_replicate

theorem separable_kernel : kernel.Separable := by
  refine Kernel.separable_of_perElement rfl passesCount_kernel fitting_kernel
    fun settings input known output count workers haccept => ?_
  obtain ⟨hz, hhz, -⟩ := bind_eq_ok_iff.1 haccept
  exact ⟨_, bind_pure_eq_ok hhz _, (· = _), rfl, fun x _ => sameOver_pass _ x _⟩

end FilterBank

namespace Subbands

theorem passesCount_kernel : kernel.PassesCount := by
  intro settings input known output count n h
  dsimp only [kernel, accept] at h ⊢
  split at h
  · cases h
  · cases h
    exact ⟨rfl, fun m => ⟨rfl, rfl⟩⟩

end Subbands

namespace Kernel

variable {k : Kernel}

theorem separable_of_mem_builtin (h : k ∈ builtinKernels) : k.Separable := by
  simp only [builtinKernels, List.mem_cons, List.not_mem_nil, or_false] at h
  rcases h with rfl | rfl | rfl | rfl | rfl | rfl | rfl | rfl | rfl | rfl | rfl | rfl | rfl | rfl
  · exact separable_of_plain rfl (fun _ _ => rfl) (fun _ _ _ _ _ _ => rfl)
      (passesCount_of_answer (fun _ _ _ _ => rfl) fun _ _ _ _ => rfl) Conversion.sound_kernel
  · exact Framing.separable_kernel
  · exact separable_of_plain rfl (fun _ _ => rfl) (fun _ _ _ _ _ _ => rfl)
      (passesCount_of_answer (fun _ _ _ _ => rfl) fun _ _ _ _ => rfl) Padding.sound_kernel
  · exact Spectrum.answering_forwardKernel.separable Spectrum.passesCount_forwardKernel
  · exact Spectrum.answering_inverseKernel.separable Spectrum.passesCount_inverseKernel
  · exact separable_of_plain rfl (fun _ _ => rfl) (fun _ _ _ _ _ _ => rfl)
      (passesCount_of_answer (fun _ _ _ _ => rfl) fun _ _ _ _ => rfl) Power.sound_powerKernel
  · exact separable_of_plain rfl (fun _ _ => rfl) (fun _ _ _ _ _ _ => rfl)
      (passesCount_of_answer (fun _ _ _ _ => rfl) fun _ _ _ _ => rfl) Power.sound_magnitudeKernel
  · exact separable_of_plain rfl (fun _ _ => rfl) (fun _ _ _ _ _ _ => rfl)
      (passesCount_of_answer (fun _ _ _ _ => rfl) fun _ _ _ _ => rfl)
      Averages.sound_intensityKernel
  · exact separable_of_plain rfl (fun _ _ => rfl) (fun _ _ _ _ _ _ => rfl)
      (passesCount_of_answer (fun _ _ _ _ => rfl) fun _ _ _ _ => rfl) Averages.sound_meanKernel
  · exact Difference.answering_kernel.separable Difference.passesCount_kernel
  · exact FilterBank.separable_kernel
  · exact separable_of_plain rfl (fun _ _ => rfl) (fun _ _ _ _ _ _ => rfl)
      Subbands.passesCount_kernel Subbands.sound_kernel
  · exact Autocorrelation.answering_kernel.separable Autocorrelation.passesCount_kernel
  · exact Tempo.separable_kernel

end Kernel

end Timbre
