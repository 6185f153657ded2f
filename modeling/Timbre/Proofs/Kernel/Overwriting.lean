import Timbre.Proofs.Kernel.Answers
import Timbre.Proofs.Kernel.Batches
import Timbre.Proofs.Kernel.Leftovers
import Timbre.Proofs.Kernel.Plain
import Timbre.Registry

/-! # Outputs that are written over

A stage that has accepted a format writes as many values as each of its outputs holds: every pair of
a spectrum, every frame of a signal, every band and every lag has its place, and the last one has a
value. So what an output held before is not seen in what it holds afterwards, and a stage may write
over the outputs of an earlier run.
-/
namespace Timbre

namespace Samples

theorem overwrite_congr {α : Type} {output other values : Array α} (h : other.size = output.size)
    (hvalues : output.size ≤ values.size) : overwrite output values = overwrite other values := by
  rw [overwrite_of_size_le hvalues, overwrite_of_size_le (h ▸ hvalues), h]

end Samples

theorem Conversion.overwrites_kernel : kernel.Overwrites := by
  intro settings shape before input known output count n workers plan haccept _
  cases haccept
  refine Stage.overwrites_of_plain _ (fun _ _ => rfl)
    (plainWork_eq fun _ _ xs out => .ok (convert xs out)) ?_
  intro xs out out' hxs hout hout'
  have hvalues : (xs.map Single.ofInt16).size = out.size :=
    Array.size_map.trans (hxs.trans hout.symm)
  exact congrArg Except.ok
    (Samples.overwrite_congr (hout'.trans hout.symm) (Nat.le_of_eq hvalues.symm))

namespace Padding

theorem pad_congr {α : Type} [Zero α] (xs : Array α) {out out' : Array α}
    (h : out'.size = out.size) : pad xs out = pad xs out' := by
  unfold pad
  by_cases hle : xs.size ≤ out.size
  · have hle' : xs.size ≤ out'.size := h ▸ hle
    rw [Checked.slice_eq_ok hle (Nat.le_refl _), Checked.slice_eq_ok hle' (Nat.le_refl _)]
    apply congrArg Except.ok
    rw [Array.map_const', Array.map_const', Array.size_extract, Array.size_extract, h]
  · rw [Checked.slice, Checked.slice, if_neg (by omega), if_neg (by omega)]

theorem overwrites_kernel : kernel.Overwrites := by
  intro settings shape before input known output count n workers plan haccept _
  cases haccept
  refine Stage.overwrites_of_plain _ (fun _ _ => rfl) (plainWork_eq fun _ _ xs out => pad xs out) ?_
  exact fun xs out out' _ hout hout' => pad_congr xs (hout'.trans hout.symm)

end Padding

namespace Power

/-- There is a value for every place: a pair of values is read for each. -/
theorem overwrite_pairs_congr {α β : Type} (f : α × α → β) {xs : Array α} {out out' : Array β}
    (hout : out.size = xs.size / 2) (hout' : out'.size = xs.size / 2) :
    Samples.overwrite out ((Samples.pairs xs).map f) =
      Samples.overwrite out' ((Samples.pairs xs).map f) := by
  have hsize : ((Samples.pairs xs).map f).size = out.size := by
    rw [Array.size_map, Samples.pairs, Array.size_ofFn, hout]
  exact Samples.overwrite_congr (hout'.trans hout.symm) (Nat.le_of_eq hsize.symm)

theorem overwrites_powerKernel : powerKernel.Overwrites := by
  intro settings shape before input known output count n workers plan haccept _
  cases haccept
  refine Stage.overwrites_of_plain _ (fun _ _ => rfl)
    (plainWork_eq fun _ _ xs out => .ok (powers xs out)) ?_
  intro xs out out' hxs hout hout'
  have hxs : xs.size = input.size := hxs
  exact congrArg Except.ok (overwrite_pairs_congr _ (hxs ▸ hout) (hxs ▸ hout'))

theorem overwrites_magnitudeKernel : magnitudeKernel.Overwrites := by
  intro settings shape before input known output count n workers plan haccept _
  cases haccept
  refine Stage.overwrites_of_plain _ (fun _ _ => rfl)
    (plainWork_eq fun _ _ xs out => .ok (magnitudes Single.hypot xs out)) ?_
  intro xs out out' hxs hout hout'
  have hxs : xs.size = input.size := hxs
  exact congrArg Except.ok (overwrite_pairs_congr _ (hxs ▸ hout) (hxs ▸ hout'))

end Power

namespace Averages

theorem overwrites_intensityKernel : intensityKernel.Overwrites := by
  intro settings shape before input known output count n workers plan haccept _
  cases haccept
  exact Stage.overwrites_of_plain _ (fun _ _ => rfl)
    (plainWork_eq fun _ _ xs _ => .ok (@intensity Single _ _ _ _ _ xs)) fun _ _ _ _ _ _ => rfl

theorem overwrites_meanKernel : meanKernel.Overwrites := by
  intro settings shape before input known output count n workers plan haccept _
  cases haccept
  exact Stage.overwrites_of_plain _ (fun _ _ => rfl)
    (plainWork_eq fun types _ xs _ => .ok (means types xs)) fun _ _ _ _ _ _ => rfl

end Averages

namespace Subbands

theorem length_of_bandsFrom {size offset last : Nat} {depths : List Nat} {bands : List Band}
    (h : bandsFrom size offset depths = .ok (bands, last)) : bands.length = depths.length := by
  induction depths generalizing offset bands with
  | nil =>
    cases h
    rfl
  | cons depth depths ih =>
    obtain ⟨w, -, h⟩ := bind_eq_ok_iff.1 h
    obtain ⟨⟨rest, last'⟩, hrest, h⟩ := bind_eq_ok_iff.1 h
    cases h
    exact congrArg (· + 1) (ih hrest)

theorem length_of_tile {size : Nat} {depths : List Nat} {bands : List Band}
    (h : tile size depths = .ok bands) : bands.length = depths.length := by
  obtain ⟨⟨bands', last⟩, hbands, h⟩ := bind_eq_ok_iff.1 h
  dsimp only at h
  split at h
  · cases h
    exact length_of_bandsFrom hbands
  · cases h

theorem energies_congr {α : Type} [Add α] [Mul α] [Zero α] {bands : List Band} (xs : Array α)
    {out out' : Array α} (hout : out.size = bands.length) (hout' : out'.size = bands.length) :
    energies bands xs out = energies bands xs out' := by
  unfold energies
  rw [List.take_of_length_le (Nat.le_of_eq hout.symm),
    List.take_of_length_le (Nat.le_of_eq hout'.symm)]
  cases hpassed : bands.mapM fun b => (Checked.slice xs b.start b.stop).map Samples.energy with
  | error e => rfl
  | ok es =>
    have hlength : es.toArray.size = out.size := (length_of_mapM_eq_ok hpassed).trans hout.symm
    exact congrArg Except.ok
      (Samples.overwrite_congr (hout'.trans hout.symm) (Nat.le_of_eq hlength.symm))

theorem overwrites_kernel : kernel.Overwrites := by
  intro settings shape before input known output count n workers plan haccept _
  have hanswer : (accept settings shape input count).answer = .ok (output, n) := haccept
  have hshape : (kernel.accept settings shape input known count).shape =
    (accept settings shape input count).shape := rfl
  rw [hshape]
  unfold accept at hanswer ⊢
  split at hanswer
  · cases hanswer
  · rename_i bands htile
    cases hanswer
    refine Stage.overwrites_of_plain _ (fun _ _ => rfl)
      (plainWork_eq fun _ bands xs out => energies bands xs out) ?_
    intro xs out out' _ hout hout'
    have hbands := length_of_tile htile
    exact energies_congr xs (Eq.trans hout hbands.symm) (Eq.trans hout' hbands.symm)

end Subbands

namespace FilterBank

theorem pass_congr {α : Type} [Add α] [Mul α] [Zero α] {bank : Array (Filter α)} (xs : Array α)
    {out out' : Array α} (hout : out.size = bank.size) (hout' : out'.size = bank.size) :
    pass bank xs out = pass bank xs out' := by
  unfold pass
  rw [hout, hout', Array.extract_size, Array.mapM_eq_mapM_toList]
  cases hpassed : bank.toList.mapM (Filter.pass xs) with
  | error e => rfl
  | ok es =>
    have hlength : es.toArray.size = out.size := (length_of_mapM_eq_ok hpassed).trans hout.symm
    exact congrArg Except.ok
      (Samples.overwrite_congr (hout'.trans hout.symm) (Nat.le_of_eq hlength.symm))

theorem size_of_prepare {settings : Settings} {input : Format Signal} {bank : Array (Filter Single)}
    (h : prepare settings input = .ok bank) : bank.size = settings.number := by
  obtain ⟨hz, -, h⟩ := bind_eq_ok_iff.1 h
  cases h
  exact Array.size_ofFn

theorem overwrites_kernel : kernel.Overwrites := by
  intro settings shape before input known output count n workers bank haccept hprepare
  obtain ⟨-, rfl, rfl⟩ := accept_eq_ok haccept
  have hbank : bank.size = settings.number := size_of_prepare hprepare
  refine Stage.overwrites_of_perElement rfl (fun xs out w hw => ?_)
    fun xs out out' _ hout hout' => ?_
  · obtain ⟨ys, -, hys⟩ := bind_eq_ok_iff.1 hw
    cases hys
    rfl
  · dsimp only
    rw [pass_congr xs (Eq.trans hout hbank.symm) (Eq.trans hout' hbank.symm)]

end FilterBank

namespace Framing

variable {s : Settings} {window signal : Array Single}

/-- A frame has a value for every place: as many samples as factors are multiplied. -/
theorem frame_congr (index : Nat) {out out' : Array Single} (hwindow : window.size = s.length)
    (hout : out.size = s.length) (hout' : out'.size = s.length) :
    frame s window signal index out = frame s window signal index out' := by
  dsimp only [frame]
  cases hslice : Checked.slice signal (index * s.step) (index * s.step + s.length) with
  | error e => rfl
  | ok samples =>
    have hsamples : samples.size = s.length := by
      unfold Checked.slice at hslice
      split at hslice
      · cases hslice
        rw [Array.size_extract]
        omega
      · cases hslice
    have hsize : (Array.zipWith (· * ·) samples window).size = out.size := by
      rw [Array.size_zipWith]
      omega
    exact congrArg Except.ok
      (Samples.overwrite_congr (hout'.trans hout.symm) (Nat.le_of_eq hsize.symm))

theorem framesOf_eq (hwindow : window.size = s.length) {outs : List (Array Single)}
    (houts : ∀ out ∈ outs, out.size = s.length) : framesOf s window signal outs =
      (List.range outs.length).mapM fun index =>
        frame s window signal index (Array.replicate s.length 0) := by
  have hblank : ∀ p ∈ outs.zipIdx, frame s window signal p.2 p.1 =
      frame s window signal p.2 (Array.replicate s.length 0) := by
    rintro ⟨out, index⟩ hp
    obtain ⟨-, hout⟩ := List.mem_zipIdx' hp
    exact frame_congr index hwindow (houts out (hout ▸ List.getElem_mem _)) Array.size_replicate
  rw [framesOf, mapM_congr hblank, List.range_eq_range', ← List.zipIdx_map_snd 0 outs,
    List.mapM_map]
  rfl

theorem frames_congr (hwindow : window.size = s.length) {count n : Nat} (hpos : 0 < n)
    {signals outs outs' : Array (Array Single)} (hsignals : signals.size = count)
    (houts : outs.size = count * n) (houts' : outs'.size = count * n)
    (hout : ∀ out ∈ outs, out.size = s.length) (hout' : ∀ out ∈ outs', out.size = s.length) :
    frames s n window signals outs = frames s n window signals outs' := by
  have hpieces {outs : Array (Array Single)} (houts : outs.size = count * n) :
      ((Samples.chunks n outs).map Array.toList).length = signals.toList.length := by
    rw [List.length_map, Samples.length_chunks hpos houts, Array.length_toList, hsignals]
  have hpiece {outs : Array (Array Single)} (houts : outs.size = count * n)
      (hout : ∀ out ∈ outs, out.size = s.length) :
      ∀ piece ∈ (Samples.chunks n outs).map Array.toList,
        piece.length = n ∧ ∀ out ∈ piece, out.size = s.length := by
    intro piece hpiece
    obtain ⟨chunk, hchunk, rfl⟩ := List.mem_map.1 hpiece
    exact ⟨Samples.size_of_mem_chunks hpos houts chunk hchunk, fun out hmem =>
      hout out (Samples.mem_of_mem_chunks hchunk out (Array.mem_toList_iff.1 hmem))⟩
  dsimp only [frames]
  rw [Nat.max_eq_left hpos, Samples.zipWithM_congr (fun _ : Unit => True)
    (fun piece : List (Array Single) => piece.length = n ∧ ∀ out ∈ piece, out.size = s.length)
    (hpieces houts) (hpieces houts') (hpiece houts hout) (hpiece houts' hout') trivial ?_
    fun _ _ _ _ _ _ _ _ => trivial]
  intro _ _ signal _ piece piece' hgood hgood'
  rw [framesOf_eq hwindow hgood.2, framesOf_eq hwindow hgood'.2, hgood.1, hgood'.1]

theorem overwrites_kernel : kernel.Overwrites := by
  intro settings shape before input known output count total workers window haccept hprepare
  obtain ⟨n, hframes, rfl, rfl⟩ := accept_eq_ok haccept
  obtain ⟨-, hn⟩ := frameCount_eq_ok hframes
  have hshape : (kernel.accept settings shape input known count).shape = n :=
    congrArg Acceptance.shape (accept_eq hframes shape known count)
  have hpos : 0 < n := hn ▸ Nat.succ_pos _
  have hwindow : window.size = settings.length := by
    cases hprepare
    exact Array.size_ofFn
  rw [hshape]
  refine Stage.overwrites_of_wholeBatch rfl fun signals outs outs' hsignals houts houts' => ?_
  have hsame := frames_congr hwindow hpos hsignals.1 houts.1 houts'.1 houts.2 houts'.2
  exact congrArg (fun r : Except Fault (Array (Array Single)) =>
    r >>= fun ys => (pure ⟨ys, window, []⟩ : Except Fault (Written _ _))) hsame

end Framing

namespace Tempo

theorem report_congr (peaks : List (Peak Single)) {out out' : Array (Vector Single 2)}
    (h : out'.size = out.size) : report peaks out = report peaks out' := by
  rw [report, report, Array.map_const', Array.map_const', h]

theorem work_congr {s : Settings Single} (rate : Single) {count size : Nat} (hbands : 0 < s.bands)
    {signals : Array (Array Single)} {outs outs' : Array (Array (Vector Single 2))}
    (hsignals : signals.size = count * s.bands) (houts : outs.size = count)
    (houts' : outs'.size = count) (hout : ∀ out ∈ outs, out.size = size)
    (hout' : ∀ out ∈ outs', out.size = size) :
    work s rate signals outs = work s rate signals outs' := by
  have hgroups : ((Samples.chunks s.bands signals).map Array.toList).length = count := by
    rw [List.length_map, Samples.length_chunks hbands hsignals]
  dsimp only [work]
  rw [Samples.zipWithM_congr (fun _ : Unit => True)
    (fun out : Array (Vector Single 2) => out.size = size) (houts.trans hgroups.symm)
    (houts'.trans hgroups.symm) (by simpa using hout) (by simpa using hout') trivial ?_
    fun _ _ _ _ _ _ _ _ => trivial]
  intro _ _ group _ out out' hgood hgood'
  simp only [report_congr _ (hgood'.trans hgood.symm)]

theorem overwrites_kernel : kernel.Overwrites := by
  intro settings shape before input known output count n workers plan haccept _
  obtain ⟨⟨hz, haccepts⟩, rfl⟩ := accept_eq_ok haccept
  obtain rfl := haccepts.count_eq
  refine Stage.overwrites_of_wholeBatch rfl fun signals outs outs' hsignals houts houts' => ?_
  have hsame := work_congr (kernel.accept settings shape input known
    (n * settings.bands)).shape haccepts.bands_pos hsignals.1 houts.1 houts'.1 houts.2 houts'.2
  exact congrArg (fun r : Except Fault (Array (Array (Vector Single 2))) =>
    r >>= fun ys => (pure ⟨ys, (), []⟩ : Except Fault (Written _ Unit))) hsame

end Tempo

theorem Kernel.overwrites_of_mem_builtin {k : Kernel} (h : k ∈ builtinKernels) : k.Overwrites := by
  simp only [builtinKernels, List.mem_cons, List.not_mem_nil, or_false] at h
  rcases h with rfl | rfl | rfl | rfl | rfl | rfl | rfl | rfl | rfl | rfl | rfl | rfl | rfl | rfl
  · exact Conversion.overwrites_kernel
  · exact Framing.overwrites_kernel
  · exact Padding.overwrites_kernel
  · exact Spectrum.answering_forwardKernel.overwrites
  · exact Spectrum.answering_inverseKernel.overwrites
  · exact Power.overwrites_powerKernel
  · exact Power.overwrites_magnitudeKernel
  · exact Averages.overwrites_intensityKernel
  · exact Averages.overwrites_meanKernel
  · exact Difference.answering_kernel.overwrites
  · exact FilterBank.overwrites_kernel
  · exact Subbands.overwrites_kernel
  · exact Autocorrelation.answering_kernel.overwrites
  · exact Tempo.overwrites_kernel

end Timbre
