import Timbre.Kernel.Framing
import Timbre.Kernel.Tempo
import Timbre.Proofs.Kernel.Soundness
import Timbre.Proofs.Traversal

/-! # Soundness of kernels that change the number of elements

Both of these kernels work on pieces: a signal goes with as many frames as it has, a group of
signals with one list of peaks. A collection that is a whole number of pieces long falls into pieces
of one length, so that nothing is left over on either side.
-/
namespace Timbre

namespace Samples

variable {α : Type} {xs : Array α} {count n : Nat}

theorem length_chunks (hn : 0 < n) (h : xs.size = count * n) : (chunks n xs).length = count := by
  rw [chunks, List.length_map, List.length_range, h, Nat.add_comm,
    Nat.add_mul_div_right _ _ hn, Nat.div_eq_of_lt (by omega), Nat.zero_add]

theorem size_of_mem_chunks (hn : 0 < n) (h : xs.size = count * n) :
    ∀ piece ∈ chunks n xs, piece.size = n := by
  intro piece hpiece
  have hlength := length_chunks hn h
  rw [chunks] at hpiece
  obtain ⟨i, hi, rfl⟩ := List.mem_map.1 hpiece
  have hlt : i < count := by
    rw [← hlength, chunks, List.length_map, List.length_range]
    exact List.mem_range.1 hi
  have hroom : (i + 1) * n ≤ count * n := Nat.mul_le_mul_right n hlt
  rw [Nat.succ_mul] at hroom
  rw [Array.size_extract]
  omega

theorem mem_of_mem_chunks {piece : Array α} (h : piece ∈ chunks n xs) : ∀ x ∈ piece, x ∈ xs := by
  intro x hx
  obtain ⟨i, -, rfl⟩ := List.mem_map.1 h
  exact mem_of_mem_extract hx

end Samples

namespace Framing

variable {s : Settings} {size : Nat} {signal : Array Single}

theorem frame_within (hlength : s.length ≤ size) {index : Nat}
    (hindex : index < (size - s.length) / s.step + 1) : index * s.step + s.length ≤ size := by
  have hle : index * s.step ≤ (size - s.length) / s.step * s.step :=
    Nat.mul_le_mul_right _ (Nat.lt_succ_iff.1 hindex)
  have hdiv := Nat.div_mul_le_self (size - s.length) s.step
  omega

theorem exists_framesOf (window : Array Single) (hlength : s.length ≤ signal.size)
    (outs : List (Array Single))
    (houts : outs.length = (signal.size - s.length) / s.step + 1)
    (hsize : ∀ out ∈ outs, out.size = s.length) :
    ∃ ys, framesOf s window signal outs = .ok ys ∧ ys.length = outs.length ∧
      ∀ y ∈ ys, y.size = s.length := by
  obtain ⟨ys, hys, hlen, hgood⟩ := exists_mapM_eq_ok (fun y : Array Single => y.size = s.length)
    (fun p : Array Single × Nat => frame s window signal p.2 p.1) outs.zipIdx
    fun p hp => by
      obtain ⟨out, index⟩ := p
      obtain ⟨hlt, hout⟩ := List.mem_zipIdx' hp
      have hwithin := frame_within hlength (houts ▸ hlt)
      refine ⟨_, bind_pure_eq_ok (Checked.slice_eq_ok (Nat.le_add_right _ _) hwithin) _, ?_⟩
      rw [Samples.size_overwrite]
      exact hsize out (hout ▸ List.getElem_mem hlt)
  exact ⟨ys, hys, hlen.trans (by simp), hgood⟩

theorem exists_frames (window : Array Single) {count n : Nat} {signals outs : Array (Array Single)}
    (hlength : s.length ≤ size) (hn : n = (size - s.length) / s.step + 1)
    (hsignals : signals.size = count) (hsignal : ∀ x ∈ signals, x.size = size)
    (houts : outs.size = count * n) (hout : ∀ out ∈ outs, out.size = s.length) :
    ∃ ys, frames s n window signals outs = .ok ys ∧ ys.size = count * n ∧
      ∀ y ∈ ys, y.size = s.length := by
  have hpos : 0 < n := hn ▸ Nat.succ_pos _
  have hpieces : signals.toList.length = ((Samples.chunks n outs).map Array.toList).length := by
    rw [List.length_map, Samples.length_chunks hpos houts]
    exact hsignals
  obtain ⟨done, last, hzip, hlen, hgood, -⟩ := Samples.exists_zipWithM (fun _ : Unit => True)
    (fun piece : List (Array Single) => piece.length = n ∧ ∀ y ∈ piece, y.size = s.length)
    (f := fun _ signal piece => return (← framesOf s window signal piece, ()))
    (s := ()) hpieces trivial fun _ _ signal hsig piece hpiece => by
      obtain ⟨chunk, hchunk, rfl⟩ := List.mem_map.1 hpiece
      have hsize : signal.size = size := hsignal signal (Array.mem_toList_iff.1 hsig)
      have hcount : chunk.toList.length = n := Samples.size_of_mem_chunks hpos houts chunk hchunk
      obtain ⟨ys, hys, hylen, hy⟩ := exists_framesOf window (hsize ▸ hlength)
        chunk.toList (by rw [hcount, hsize, hn])
        fun out h => hout out (Samples.mem_of_mem_chunks hchunk out (Array.mem_toList_iff.1 h))
      exact ⟨ys, (), bind_pure_eq_ok hys _, ⟨hylen.trans hcount, hy⟩, trivial⟩
  refine ⟨done.flatten.toArray, ?_, ?_, fun y hy => ?_⟩
  · rw [frames, Nat.max_eq_left hpos]
    exact bind_pure_eq_ok hzip _
  · have hsizes : done.map List.length = List.replicate count n := by
      rw [List.eq_replicate_iff]
      refine ⟨by rw [List.length_map, hlen, ← hpieces]; exact hsignals, fun k hk => ?_⟩
      obtain ⟨piece, hpiece, rfl⟩ := List.mem_map.1 hk
      exact (hgood piece hpiece).1
    rw [List.size_toArray, List.length_flatten, hsizes, List.sum_replicate_nat]
  · obtain ⟨piece, hpiece, hmem⟩ := List.mem_flatten.1 (List.mem_toArray.1 hy)
    exact (hgood piece hpiece).2 y hmem

theorem frameCount_eq_ok {n : Nat} (h : frameCount s size = .ok n) :
    s.length ≤ size ∧ n = (size - s.length) / s.step + 1 := by
  obtain ⟨room, hroom, h⟩ := bind_eq_ok_iff.1 h
  obtain ⟨steps, hsteps, h⟩ := bind_eq_ok_iff.1 h
  obtain ⟨hlength, rfl⟩ := Checked.sub_eq_ok_iff.1 hroom
  obtain ⟨-, rfl⟩ := Checked.div_eq_ok_iff.1 hsteps
  cases h
  exact ⟨hlength, rfl⟩

theorem accept_eq_ok {shape : Nat} {input known output : Format Signal} {count total : Nat}
    (h : (kernel.accept s shape input known count).answer = .ok (output, total)) :
    ∃ n, frameCount s input.size = .ok n ∧ output = known.withSize s.length ∧
      total = count * n := by
  dsimp only [kernel] at h
  split at h
  · cases h
  · cases hframes : frameCount s input.size with
    | error e =>
      rw [hframes] at h
      cases h
    | ok n =>
      rw [hframes] at h
      cases h
      exact ⟨n, rfl, rfl, rfl⟩

theorem accept_eq {input : Format Signal} {n : Nat} (h : frameCount s input.size = .ok n)
    (shape : Nat) (known : Format Signal) (count : Nat) :
    kernel.accept s shape input known count =
      { shape := n, answer := .ok (known.withSize s.length, count * n) } := by
  have hlength := (frameCount_eq_ok h).1
  dsimp only [kernel]
  rw [if_neg (Nat.not_lt.2 hlength), h]

theorem sound_kernel : kernel.Sound := by
  intro settings input known output count total workers plan _ haccept hprepare
  obtain ⟨n, hframes, rfl, rfl⟩ := accept_eq_ok haccept
  obtain ⟨hlength, hn⟩ := frameCount_eq_ok hframes
  have hshape : (kernel.accept settings kernel.shape input known count).shape = n :=
    congrArg Acceptance.shape (accept_eq hframes kernel.shape known count)
  rw [hshape]
  refine Stage.works_of_wholeBatch rfl fun signals hsignals => ?_
  have hout : ∀ out ∈ Array.replicate (count * n) (Array.replicate settings.length (0 : Single)),
      out.size = settings.length := by
    intro out hmem
    rw [(Array.mem_replicate.1 hmem).2, Array.size_replicate]
  obtain ⟨ys, hys, hsize, hgood⟩ := exists_frames plan hlength hn hsignals.1 hsignals.2
    Array.size_replicate hout
  exact ⟨⟨ys, plan, []⟩, bind_pure_eq_ok hys _, hsize, hgood⟩

end Framing

namespace Tempo

variable {α : Type}

theorem exists_addAt [Add α] {buffer : Array α} (signal : Array α) {offset : Nat}
    (h : offset ≤ buffer.size) :
    ∃ sum, addAt buffer signal offset = .ok sum ∧ sum.size = buffer.size :=
  ⟨_, if_pos h, Array.size_mapIdx⟩

theorem size_cleared [Zero α] (buffer : Array α) (length : Nat) :
    (cleared buffer length).size = length := by
  simp [cleared]

theorem pos_of_isPeak [LT α] [DecidableLT α] [LE α] [DecidableLE α] {values : Array α} {i : Nat}
    (h : isPeak values i) : 0 < i := by
  unfold isPeak at h
  split at h
  · simp only [Bool.and_eq_true, decide_eq_true_eq] at h
    exact h.1.1
  · cases h

theorem exists_comb [Add α] [Zero α] {pulses : Nat} (hpulses : 0 < pulses) (period : Nat)
    (signal buffer : Array α) :
    ∃ convolved, comb pulses period signal buffer = .ok convolved := by
  obtain ⟨convolved, hfold, -⟩ := exists_foldlM_eq_ok
    (fun b : Array α => b.size = signal.size + (pulses - 1) * period)
    (fun b pulse => addAt b signal (pulse * period)) (List.range pulses)
    (size_cleared buffer _) fun b hb pulse hpulse => by
      have hle : pulse * period ≤ (pulses - 1) * period :=
        Nat.mul_le_mul_right _ (Nat.le_pred_of_lt (List.mem_range.1 hpulse))
      obtain ⟨sum, hsum, hsize⟩ := exists_addAt signal
        (show pulse * period ≤ b.size by omega)
      exact ⟨sum, hsum, hsize.trans hb⟩
  refine ⟨convolved, ?_⟩
  rw [comb, Checked.sub_eq_ok hpulses]
  exact hfold

theorem exists_groupEnergy [Add α] [Mul α] [Zero α] {pulses : Nat} (hpulses : 0 < pulses)
    (period : Nat) (group : List (Array α)) (buffer : Array α) :
    ∃ r, groupEnergy pulses period group buffer = .ok r := by
  unfold groupEnergy
  refine (exists_foldlM_eq_ok (fun _ : α × Array α => True) _ group trivial
    fun acc _ signal _ => ?_).imp fun r hr => hr.1
  obtain ⟨convolved, hconvolved⟩ := exists_comb hpulses period signal acc.2
  refine ⟨(acc.1 + Samples.energy convolved, convolved), ?_, trivial⟩
  rw [combEnergy, hconvolved]
  rfl

theorem exists_search [Add α] [Sub α] [Mul α] [Div α] [Zero α] [NatCast α] [LT α] [DecidableLT α]
    [Rounding α] {pulses : Nat} (hpulses : 0 < pulses) (rate : α) (group : List (Array α))
    (low high step : α) (buffer : Array α) :
    ∃ pass, search pulses rate group low high step buffer = .ok pass := by
  obtain ⟨pass, hpass, -⟩ := exists_foldlM_eq_ok (fun _ : Pass α => True)
    (Pass.push pulses rate group low step) (List.range (searchSize low high step))
    (s := ⟨#[], ⟨low, 0⟩, buffer⟩) trivial fun pass _ i _ => by
      obtain ⟨r, hr⟩ := exists_groupEnergy hpulses (period rate (tempoAt low step i)) group
        pass.buffer
      exact ⟨_, bind_pure_eq_ok hr _, trivial⟩
  exact ⟨pass, hpass⟩

theorem pos_of_mem_strongest [Zero α] [LT α] [DecidableLT α] [LE α] [DecidableLE α]
    {values : Array α} {count i : Nat} (h : i ∈ strongest values count) : 0 < i := by
  have hmem := List.mem_of_mem_take (List.mem_mergeSort.1 h)
  exact pos_of_isPeak (List.mem_filter.1 (List.mem_mergeSort.1 hmem)).2

section Refining

variable [Add α] [Sub α] [Mul α] [Div α] [Zero α] [NatCast α] [LT α] [DecidableLT α] [Rounding α]
  {s : Settings α}

/-- One coarse step below a position of the coarse pass. -/
def fineLow (s : Settings α) (position : Nat) : α :=
  tempoAt (s.minTempo : α) s.coarse (position - 1)

/-- One coarse step above it. -/
def fineHigh (s : Settings α) (position : Nat) : α :=
  tempoAt (s.minTempo : α) s.coarse (position + 1)

/-- A peak is the best of the fine pass around a position. -/
def Refines (s : Settings α) (rate : α) (group : List (Array α)) (position : Nat)
    (peak : Peak α) : Prop :=
  ∃ buffer pass, search s.pulses rate group (fineLow s position) (fineHigh s position) s.fine
    buffer = .ok pass ∧ pass.best = peak

theorem refinePeak_eq_ok {rate : α} {group : List (Array α)} {buffer : Array α} {position : Nat}
    {pass : Pass α} (hposition : 0 < position)
    (h : search s.pulses rate group (fineLow s position) (fineHigh s position) s.fine buffer =
      .ok pass) : refinePeak s rate group buffer position = .ok (pass.best, pass.buffer) := by
  rw [refinePeak, Checked.sub_eq_ok hposition]
  exact bind_pure_eq_ok h _

theorem exists_foldlM_refinePeak (hpulses : 0 < s.pulses) (rate : α) (group : List (Array α))
    {positions : List Nat} (hpositions : ∀ position ∈ positions, 0 < position)
    (found : List (Peak α)) (buffer : Array α) :
    ∃ peaks buffer', positions.foldlM (fun acc position => do
        let (peak, buffer) ← refinePeak s rate group acc.2 position
        return (acc.1 ++ [peak], buffer)) (found, buffer) = .ok (found ++ peaks, buffer') ∧
      List.Forall₂ (Refines s rate group) positions peaks := by
  induction positions generalizing found buffer with
  | nil => exact ⟨[], buffer, by simp [pure, Except.pure], .nil⟩
  | cons position positions ih =>
    obtain ⟨hposition, hrest⟩ := List.forall_mem_cons.1 hpositions
    obtain ⟨pass, hpass⟩ := exists_search hpulses rate group (fineLow s position)
      (fineHigh s position) s.fine buffer
    obtain ⟨peaks, buffer', hfold, hrefines⟩ := ih hrest (found ++ [pass.best]) pass.buffer
    refine ⟨pass.best :: peaks, buffer', ?_, .cons ⟨buffer, pass, hpass, rfl⟩ hrefines⟩
    rw [List.foldlM_cons, refinePeak_eq_ok hposition hpass, List.append_cons]
    exact hfold

/-- The search has an answer for every group: a peak for each of the strongest positions of the
coarse pass. -/
theorem exists_analyze_refines [LE α] [DecidableLE α] (hpulses : 0 < s.pulses) (rate : α)
    (group : List (Array α)) : ∃ coarse peaks,
      search s.pulses rate group (s.minTempo : α) (s.maxTempo : α) s.coarse #[] = .ok coarse ∧
        analyze s rate group = .ok peaks ∧
        List.Forall₂ (Refines s rate group) (strongest coarse.energies s.peaks) peaks := by
  obtain ⟨coarse, hcoarse⟩ := exists_search hpulses rate group (s.minTempo : α) (s.maxTempo : α)
    s.coarse #[]
  have hpositions : ∀ position ∈ strongest coarse.energies s.peaks, 0 < position :=
    fun position hposition => pos_of_mem_strongest hposition
  obtain ⟨peaks, buffer, hfold, hrefines⟩ := exists_foldlM_refinePeak hpulses rate group
    hpositions [] coarse.buffer
  refine ⟨coarse, peaks, hcoarse, ?_, hrefines⟩
  unfold analyze
  rw [hcoarse]
  exact bind_pure_eq_ok hfold _

theorem exists_analyze [LE α] [DecidableLE α] (hpulses : 0 < s.pulses) (rate : α)
    (group : List (Array α)) : ∃ peaks, analyze s rate group = .ok peaks := by
  obtain ⟨_, peaks, -, hpeaks, -⟩ := exists_analyze_refines hpulses rate group
  exact ⟨peaks, hpeaks⟩

end Refining

variable {s : Settings Single}

theorem size_report (peaks : List (Peak Single)) (out : Array (Vector Single 2)) :
    (report peaks out).size = out.size := by
  rw [report, Samples.size_overwrite, Array.size_map]

theorem exists_work (rate : Single) {count size : Nat} {signals : Array (Array Single)}
    {outs : Array (Array (Vector Single 2))} (hpulses : 0 < s.pulses) (hbands : 0 < s.bands)
    (hsignals : signals.size = count * s.bands) (houts : outs.size = count)
    (hout : ∀ out ∈ outs, out.size = size) :
    ∃ ys, work s rate signals outs = .ok ys ∧ ys.size = count ∧ ∀ y ∈ ys, y.size = size := by
  have hgroups : ((Samples.chunks s.bands signals).map Array.toList).length =
      outs.toList.length := by
    rw [List.length_map, Samples.length_chunks hbands hsignals]
    exact houts.symm
  obtain ⟨done, last, hzip, hlen, hgood, -⟩ := Samples.exists_zipWithM (fun _ : Unit => True)
    (fun y : Array (Vector Single 2) => y.size = size)
    (f := fun _ group out => return (report (← analyze s rate group) out, ()))
    (s := ()) hgroups trivial fun _ _ group _ out hmem => by
      obtain ⟨peaks, hpeaks⟩ := exists_analyze hpulses rate group
      refine ⟨report peaks out, (), bind_pure_eq_ok hpeaks _, ?_, trivial⟩
      rw [size_report]
      exact hout out (Array.mem_toList_iff.1 hmem)
  refine ⟨done.toArray, ?_, hlen.trans houts, fun y hy => hgood y (List.mem_toArray.1 hy)⟩
  rw [work]
  exact bind_pure_eq_ok hzip _

theorem pos_of_combLength {rate : Single} {size length : Nat}
    (h : combLength s rate size = .ok length) : 0 < s.pulses := by
  obtain ⟨spread, hspread, -⟩ := bind_eq_ok_iff.1 h
  exact (Checked.sub_eq_ok_iff.1 hspread).1

/-- What is asked of signals at a rate, for so many groups of them: there is a range of tempos, the
comb is not too long, and the groups are whole. -/
structure Accepts (s : Settings Single) (input : Format Signal) (hz count groups : Nat) :
    Prop where
  range : s.minTempo < s.maxTempo
  rate_eq : input.samplingRate = .ok hz
  comb_le : ∃ length, combLength s (hz : Single) input.size = .ok length ∧ length ≤ maxCombLength
  bands_pos : 0 < s.bands
  count_eq : count = groups * s.bands

theorem Accepts.pulses_pos {input : Format Signal} {hz count groups : Nat}
    (h : Accepts s input hz count groups) : 0 < s.pulses := by
  obtain ⟨length, hlength, -⟩ := h.comb_le
  exact pos_of_combLength hlength

theorem accept_eq_ok {shape : Single} {input : Format Signal}
    {known output : Format (.array (.tuple 2))} {count n : Nat}
    (h : (accept s shape input known count).answer = .ok (output, n)) :
    (∃ hz, Accepts s input hz count n) ∧ output = known.withSize s.peaks := by
  unfold accept at h
  split at h
  · cases h
  · rename_i hrange
    split at h
    · cases h
    · cases h
    · rename_i hmod
      obtain ⟨hbands, hmod⟩ := Checked.mod_eq_ok_iff.1 hmod
      split at h
      · cases h
      · rename_i hz hrate
        obtain ⟨length, hlength, h⟩ := bind_eq_ok_iff.1 h
        split at h
        · rename_i hle
          obtain ⟨groups, hgroups, h⟩ := bind_eq_ok_iff.1 h
          obtain ⟨-, rfl⟩ := Checked.div_eq_ok_iff.1 (mapError_eq_ok_iff.1 hgroups)
          cases h
          exact ⟨⟨hz, Nat.not_le.1 hrange, hrate, ⟨length, mapError_eq_ok_iff.1 hlength, hle⟩,
            Nat.pos_of_ne_zero hbands,
            (Nat.div_mul_cancel (Nat.dvd_of_mod_eq_zero hmod)).symm⟩, rfl⟩
        · cases h

theorem Accepts.accept_eq {input : Format Signal} {hz count groups : Nat}
    (h : Accepts s input hz count groups) (shape : Single)
    (known : Format (.array (.tuple 2))) : accept s shape input known count =
      { shape := (hz : Single), answer := .ok (known.withSize s.peaks, groups) } := by
  obtain ⟨length, hlength, hle⟩ := h.comb_le
  have hmod : Checked.mod count s.bands = .ok 0 :=
    Checked.mod_eq_ok_iff.2 ⟨Nat.ne_of_gt h.bands_pos, h.count_eq ▸ Nat.mul_mod_left _ _⟩
  have hdiv : Checked.div count s.bands = .ok groups :=
    Checked.div_eq_ok_iff.2
      ⟨Nat.ne_of_gt h.bands_pos, h.count_eq ▸ Nat.mul_div_cancel _ h.bands_pos⟩
  unfold accept
  rw [if_neg (Nat.not_le.2 h.range), hmod, h.rate_eq]
  simp only [hlength, hdiv, Except.mapError, bind, Except.bind, if_pos hle]
  rfl

theorem sound_kernel : kernel.Sound := by
  intro settings input known output count n workers plan _ haccept hprepare
  obtain ⟨⟨hz, haccepts⟩, rfl⟩ := accept_eq_ok haccept
  obtain rfl := haccepts.count_eq
  refine Stage.works_of_wholeBatch rfl fun signals hsignals => ?_
  have hout : ∀ out ∈ Array.replicate n (Array.replicate settings.peaks
      (Vector.replicate 2 (0 : Single))), out.size = settings.peaks := by
    intro out hmem
    rw [(Array.mem_replicate.1 hmem).2, Array.size_replicate]
  obtain ⟨ys, hys, hsize, hgood⟩ := exists_work
    (kernel.accept settings kernel.shape input known (n * settings.bands)).shape
    haccepts.pulses_pos haccepts.bands_pos hsignals.1 Array.size_replicate hout
  exact ⟨⟨ys, (), []⟩, bind_pure_eq_ok hys _, hsize, hgood⟩

end Tempo

end Timbre
