import Mathlib.Data.Set.Card
import Mathlib.Order.Interval.Finset.Nat
import Timbre.Proofs.Kernel.Grouping
import Timbre.Proofs.Stage.Reuse

/-! # Where the frames of a signal stand

Frame `j` of a signal begins `j` steps into it, and there are as many frames as fit. The frames of
the first signal come first in the output, then those of the second, and so on, so frame `j` of
signal `i` is found at place `i * n + j` where each signal has `n` frames. Main statement:
`exists_execute_frames`.
-/
namespace Timbre

namespace Framing

variable {s : Settings} {size count index : Nat} {signal : Array Single}

/-- The frames that lie within a signal of `size` samples. -/
def within (s : Settings) (size : Nat) : Set Nat := {j | j * s.step + s.length ≤ size}

theorem within_eq (hstep : 1 ≤ s.step) (hlength : s.length ≤ size) :
    within s size = Set.Iio ((size - s.length) / s.step + 1) := by
  ext j
  rw [Set.mem_Iio, Nat.lt_succ_iff, Nat.le_div_iff_mul_le hstep, within, Set.mem_ofPred_eq,
    Nat.le_sub_iff_add_le hlength]

theorem ncard_within (hstep : 1 ≤ s.step) (hlength : s.length ≤ size) :
    (within s size).ncard = (size - s.length) / s.step + 1 := by
  rw [within_eq hstep hlength, ← Finset.coe_Iio, Set.ncard_coe_finset, Nat.card_Iio]

theorem frameCount_eq (hstep : 1 ≤ s.step) (hlength : s.length ≤ size) :
    frameCount s size = .ok (within s size).ncard := by
  have hdiv : Checked.div (size - s.length) s.step = .ok ((size - s.length) / s.step) :=
    Checked.div_eq_ok_iff.2 ⟨Nat.ne_of_gt hstep, rfl⟩
  rw [frameCount, Checked.sub_eq_ok hlength, ncard_within hstep hlength]
  exact bind_pure_eq_ok hdiv _

/-- Frame `index` of a signal. -/
def windowed (s : Settings) (signal : Array Single) (index : Nat) : Array Single :=
  Array.zipWith (· * ·) (signal.extract (index * s.step) (index * s.step + s.length))
    (coefficients s)

/-- Every sample of the frame is the one of the signal at its place, times its factor. -/
structure IsFrame (s : Settings) (signal : Array Single) (index : Nat) (frame : Array Single) :
    Prop where
  size_eq : frame.size = s.length
  sample : ∀ i < s.length, ∃ x, signal[index * s.step + i]? = some x ∧
    frame[i]? = some (x * s.window.coefficient i s.length)

theorem size_coefficients (s : Settings) : (coefficients s).size = s.length := Array.size_ofFn

theorem isFrame_windowed (h : index * s.step + s.length ≤ signal.size) :
    IsFrame s signal index (windowed s signal index) where
  size_eq := by
    rw [windowed, Array.size_zipWith, Array.size_extract, size_coefficients]
    omega
  sample i hi := by
    have hplace : index * s.step + i < signal.size := by omega
    have hstop : i < min (index * s.step + s.length) signal.size - index * s.step := by omega
    refine ⟨signal[index * s.step + i], Array.getElem?_eq_getElem hplace, ?_⟩
    rw [windowed, Array.getElem?_zipWith, Array.getElem?_extract, if_pos hstop,
      Array.getElem?_eq_getElem hplace]
    simp [coefficients, hi]

theorem frame_eq_ok (h : index * s.step + s.length ≤ signal.size) {out : Array Single}
    (hout : out.size = s.length) :
    frame s (coefficients s) signal index out = .ok (windowed s signal index) := by
  dsimp only [frame]
  rw [Checked.slice_eq_ok (Nat.le_add_right _ _) h]
  exact congrArg Except.ok
    (Samples.overwrite_of_size_eq hout (isFrame_windowed h).size_eq)

theorem framesOf_eq_ok (hlength : s.length ≤ signal.size) {outs : List (Array Single)}
    (houts : outs.length = (signal.size - s.length) / s.step + 1)
    (hsize : ∀ out ∈ outs, out.size = s.length) : framesOf s (coefficients s) signal outs =
      .ok ((List.range outs.length).map (windowed s signal)) := by
  rw [framesOf_eq (size_coefficients s) hsize]
  apply mapM_eq_ok
  intro index hindex
  have hlt : index < (signal.size - s.length) / s.step + 1 := houts ▸ List.mem_range.1 hindex
  exact frame_eq_ok (frame_within hlength hlt) Array.size_replicate

/-- `n` frames of each signal, signal by signal. -/
def allFrames (s : Settings) (n : Nat) (signals : Array (Array Single)) : Array (Array Single) :=
  (signals.toList.flatMap fun signal => (List.range n).map (windowed s signal)).toArray

theorem size_allFrames (s : Settings) (n : Nat) (signals : Array (Array Single)) :
    (allFrames s n signals).size = signals.size * n := by
  simp [allFrames, List.length_flatMap]

theorem getElem?_allFrames (s : Settings) {n i j : Nat} {signals : Array (Array Single)}
    (hsignal : signals[i]? = some signal) (hj : j < n) :
    (allFrames s n signals)[i * n + j]? = some (windowed s signal j) := by
  rw [allFrames, List.getElem?_toArray, getElem?_flatMap (by simp) hj,
    Array.getElem?_toList, hsignal, Option.bind_some, List.getElem?_map, List.getElem?_range hj,
    Option.map_some]

theorem exists_isFrame {n : Nat} (hn : n = (size - s.length) / s.step + 1)
    (hlength : s.length ≤ size) {signals : Array (Array Single)}
    (hsignals : ∀ signal ∈ signals, signal.size = size) {i : Nat} (hi : i < signals.size) {j : Nat}
    (hj : j < n) : ∃ signal frame, signals[i]? = some signal ∧
      (allFrames s n signals)[i * n + j]? = some frame ∧ IsFrame s signal j frame := by
  have hsignal := Array.getElem?_eq_getElem hi
  have hwithin : j * s.step + s.length ≤ signals[i].size :=
    hsignals _ (Array.getElem_mem hi) ▸ frame_within hlength (hn ▸ hj)
  exact ⟨_, _, hsignal, getElem?_allFrames s hsignal hj, isFrame_windowed hwithin⟩

theorem frames_eq_ok {n : Nat} {signals outs : Array (Array Single)} (hlength : s.length ≤ size)
    (hn : n = (size - s.length) / s.step + 1) (hsignals : signals.size = count)
    (hsignal : ∀ x ∈ signals, x.size = size) (houts : outs.size = count * n)
    (hout : ∀ out ∈ outs, out.size = s.length) :
    frames s n (coefficients s) signals outs = .ok (allFrames s n signals) := by
  have hpos : 0 < n := hn ▸ Nat.succ_pos _
  have hblank : ∀ out ∈ Array.replicate (count * n) (Array.replicate s.length (0 : Single)),
      out.size = s.length := by
    intro out hmem
    rw [(Array.mem_replicate.1 hmem).2, Array.size_replicate]
  rw [frames_congr (size_coefficients s) hpos hsignals houts Array.size_replicate hout hblank,
    frames_eq_ok_iff hpos _ (by rw [hsignals]), allFrames, List.flatMap_def]
  refine ⟨_, List.forall₂_map_right_iff.2 (List.forall₂_same.2 fun signal hmem => ?_), rfl⟩
  have hsize : signal.size = size := hsignal signal (Array.mem_toList_iff.1 hmem)
  have hframes : (List.replicate n (Array.replicate s.length (0 : Single))).length =
      (signal.size - s.length) / s.step + 1 := by
    rw [List.length_replicate, hsize, hn]
  rw [framesOf_eq_ok (hsize ▸ hlength) hframes fun out hout => ?_, List.length_replicate]
  rw [List.eq_of_mem_replicate hout, Array.size_replicate]

end Framing

theorem Format.takeSource_of_rate {i j : Kind} (f : Format i) {source : Format j} {rate : Rate}
    (h : source.rate = some rate) : f.takeSource source = .ok { f with rate := some rate } := by
  unfold takeSource samplingRate
  rw [h]
  dsimp only [withRate]
  rw [Rate.ofHz_hz]
  rfl

namespace Stage

variable {s₀ s : Stage Framing.kernel} {f known : Format Signal} {count frames n : Nat}
  {warnings : List Warning}

theorem exists_accept_of_frameCount {rate : Rate} (hrate : f.rate = some rate)
    (hframes : Framing.frameCount s₀.settings f.size = .ok frames) (count : Nat) :
    ∃ s warnings, s₀.accept ⟨Signal, f⟩ count = ⟨s, .ok (count * frames), warnings⟩ := by
  have hanswer (known : Format Signal) := congrArg Acceptance.answer
    (Framing.accept_eq hframes s₀.shape known count)
  exact ⟨_, _, accept_eq (takeInput_mk s₀ f) (s₀.output.takeSource_of_rate hrate) (hanswer _)⟩

theorem frames_of_accept (h : s₀.accept ⟨Signal, f⟩ count = ⟨s, .ok n, warnings⟩) :
    ∃ frames, Framing.frameCount s₀.settings f.size = .ok frames ∧ n = count * frames ∧
      ∃ known : Format Signal,
        s = ⟨s₀.settings, frames, s₀.plan, f, known.withSize s₀.settings.length, n, false⟩ := by
  obtain ⟨input, known, output, hinput, -, hanswer, rfl⟩ := accept_eq_ok h
  obtain rfl : f = input := Except.ok.inj ((takeInput_mk s₀ f).symm.trans hinput)
  obtain ⟨frames, hframes, rfl, rfl⟩ := Framing.accept_eq_ok hanswer
  have hshape : (Framing.kernel.accept s₀.settings s₀.shape f known count).shape = frames :=
    congrArg Acceptance.shape (Framing.accept_eq hframes s₀.shape known count)
  exact ⟨frames, hframes, rfl, known, by rw [hshape]⟩

def framed (settings : Framing.Settings) (f known : Format Signal) (count frames : Nat) :
    Stage Framing.kernel :=
  ⟨settings, frames, Framing.coefficients settings, f, known.withSize settings.length,
    count * frames, true⟩

theorem exists_execute_framed {settings : Framing.Settings}
    (hframes : Framing.frameCount settings f.size = .ok frames) {b c : Buffers Signal}
    (hb : f.FitsAll count b.elements)
    (hc : (known.withSize settings.length).FitsAll (count * frames) c.elements) :
    ∃ x, (framed settings f known count frames).execute ⟨_, b⟩ ⟨_, c⟩ = .ok x ∧
      x.outputs.elements = Framing.allFrames settings frames b.elements := by
  obtain ⟨hlength, hn⟩ := Framing.frameCount_eq_ok hframes
  have hwritten := Framing.frames_eq_ok hlength hn hb.1 hb.2 hc.1 hc.2
  have hwork : (framed settings f known count frames).work b.elements c.elements =
      .ok ⟨_, Framing.coefficients settings, []⟩ :=
    congrArg (Except.mapError _) (bind_pure_eq_ok hwritten _)
  have hexecute := execute_eq (s := framed settings f known count frames) rfl
    (takeElements_mk (by decide) _ b) c
  rw [hwork] at hexecute
  exact ⟨_, hexecute, rfl⟩

/-- A format with a rate is accepted if and only if its signals are long enough for one frame. Then
each signal has as many frames as lie within it, and a stage that is prepared writes them, whatever
the outputs held before: frame `j` of signal `i` at place `i * n + j` for `n` frames of each. -/
theorem exists_execute_frames (s₀ : Stage Framing.kernel) (hstep : 1 ≤ s₀.settings.step)
    (f : Format Signal) (hrate : f.rate.isSome) (count : Nat) :
    let frames := (Framing.within s₀.settings f.size).ncard
    ((∃ s n warnings, s₀.accept ⟨Signal, f⟩ count = ⟨s, .ok n, warnings⟩) ↔
      s₀.settings.length ≤ f.size) ∧
    ∀ s n warnings, s₀.accept ⟨Signal, f⟩ count = ⟨s, .ok n, warnings⟩ →
      s.shape = frames ∧ n = count * frames ∧ s.count = n ∧ s.output.size = s₀.settings.length ∧
      ∀ workers, ∃ s', s.prepare workers = .ok s' ∧ ∀ b c : Buffers Signal,
        f.FitsAll count b.elements → s'.output.FitsAll s'.count c.elements →
          ∃ x, s'.execute ⟨_, b⟩ ⟨_, c⟩ = .ok x ∧ x.outputs.elements.size = count * frames ∧
            ∀ i < count, ∀ j < frames, ∃ signal frame, b.elements[i]? = some signal ∧
              x.outputs.elements[i * frames + j]? = some frame ∧
                Framing.IsFrame s₀.settings signal j frame := by
  intro frames
  obtain ⟨rate, hrate⟩ := Option.isSome_iff_exists.1 hrate
  refine ⟨⟨?_, fun hlength => ?_⟩, fun s n warnings haccept => ?_⟩
  · rintro ⟨s, n, warnings, haccept⟩
    obtain ⟨_, hframes, -⟩ := frames_of_accept haccept
    exact (Framing.frameCount_eq_ok hframes).1
  · obtain ⟨s, warnings, haccept⟩ :=
      exists_accept_of_frameCount hrate (Framing.frameCount_eq hstep hlength) count
    exact ⟨s, _, warnings, haccept⟩
  · obtain ⟨m, hm, rfl, known, rfl⟩ := frames_of_accept haccept
    obtain ⟨hlength, hn⟩ := Framing.frameCount_eq_ok hm
    have hframes : m = frames :=
      Except.ok.inj (hm.symm.trans (Framing.frameCount_eq hstep hlength))
    subst hframes
    refine ⟨rfl, rfl, rfl, rfl, fun workers => ⟨framed s₀.settings f known count frames, rfl,
      fun b c hb hc => ?_⟩⟩
    obtain ⟨x, hx, hxs⟩ := exists_execute_framed hm hb hc
    have hsize := Framing.size_allFrames s₀.settings frames b.elements
    rw [hb.1] at hsize
    refine ⟨x, hx, hxs ▸ hsize, fun i hi j hj => ?_⟩
    rw [hxs]
    exact Framing.exists_isFrame hn hlength hb.2 (hb.1.symm ▸ hi) hj

/-- Two signals of six samples, cut into frames of two samples that begin three samples apart: the
last of the four frames is the second one of the second signal. -/
theorem exists_execute_frames_telephone : ∃ s s' : Stage Framing.kernel,
    Stage.accept { Stage.new Framing.kernel with settings := (⟨2, 3, .hann⟩ : Framing.Settings) }
      ⟨Signal, telephone 6⟩ 2 = ⟨s, .ok 4, []⟩ ∧ s.prepare 1 = .ok s' ∧ ∃ x frame,
        s'.execute ⟨Signal, .ofElements (telephone 6) #[#[1, 2, 3, 4, 5, 6], #[6, 5, 4, 3, 2, 1]]⟩
          ⟨Signal, s'.freshOutputs⟩ = .ok x ∧ x.outputs.elements[3]? = some frame ∧
            Framing.IsFrame ⟨2, 3, .hann⟩ #[6, 5, 4, 3, 2, 1] 1 frame := by
  refine ⟨_, _, rfl, rfl, ?_⟩
  obtain ⟨-, haccepted⟩ := exists_execute_frames
    { Stage.new Framing.kernel with settings := (⟨2, 3, .hann⟩ : Framing.Settings) } (by decide)
    (telephone 6) rfl 2
  obtain ⟨-, hn, -, -, hprepare⟩ := haccepted _ _ _ rfl
  obtain ⟨s', hs', hexecute⟩ := hprepare 1
  cases hs'
  obtain ⟨x, hx, -, hframes⟩ := hexecute
    (.ofElements (telephone 6) #[#[1, 2, 3, 4, 5, 6], #[6, 5, 4, 3, 2, 1]]) _
    ⟨rfl, by simp [Buffers.ofElements, Format.Fits, telephone]⟩ (fitsAll_freshOutputs _)
  have htwo : (Framing.within ⟨2, 3, .hann⟩ (telephone 6).size).ncard = 2 :=
    Nat.eq_of_mul_eq_mul_left Nat.two_pos hn.symm
  obtain ⟨signal, frame, hsignal, hframe, hisFrame⟩ := hframes 1 (by decide) 1
    (Nat.lt_of_lt_of_eq Nat.one_lt_two htwo.symm)
  cases hsignal
  rw [htwo] at hframe
  exact ⟨x, frame, hx, hframe, hisFrame⟩

end Stage

end Timbre
