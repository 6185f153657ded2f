import Timbre.Proofs.Kernel.Overwriting

/-! # Loops that check every access

Some functions of the kernels write a whole range at once, or read zero where there is nothing. Here
their loops go from place to place instead, and every position that is read or written and every
difference of numbers is a checked step. The results are the same, and so are the faults, so none
of the functions hides an access outside of an array: `work_eq_of_guarded`.
-/
namespace Timbre

namespace Samples

variable {α : Type} {output values : Array α} {i : Nat} {x : α}

@[simp] theorem overwrite_empty (output : Array α) : overwrite output #[] = output := by
  simp [overwrite]

theorem set_overwrite (hx : values[i]? = some x) (hi : i < output.size) :
    Checked.set (overwrite output (values.extract 0 i)) i x =
      .ok (overwrite output (values.extract 0 (i + 1))) := by
  have hsize : i < (overwrite output (values.extract 0 i)).size := by rwa [size_overwrite]
  rw [Checked.set_eq_ok x hsize]
  congr 1
  apply Array.ext_getElem?
  intro j
  simp only [Array.getElem?_set, getElem?_overwrite, Array.size_extract, Array.getElem?_extract,
    Nat.sub_zero, Nat.zero_add]
  grind

end Samples

namespace Difference

variable {α : Type} [Add α] [Sub α] [Mul α]

/-- The difference and the sum at one place. -/
def haarPlace (c : α) (stride : Nat) (xs : Array α) (out : Array α × Array α) (i : Nat) :
    Except Fault (Array α × Array α) := do
  let ahead ← Checked.get xs (← Checked.mod (i + stride) xs.size)
  let x ← Checked.get xs i
  let detail ← Checked.set out.1 i ((ahead - x) * c)
  let approximation ← Checked.set out.2 i ((ahead + x) * c)
  return (detail, approximation)

def haarLoop (c : α) (stride : Nat) (xs detail approximation : Array α) :
    Except Fault (Array α × Array α) :=
  (List.range xs.size).foldlM (haarPlace c stride xs) (detail, approximation)

variable {c : α} {stride i : Nat} {xs detail approximation : Array α}

/-- Both values that a place depends on are there. -/
theorem haarPlace_eq (hi : i < xs.size) (out : Array α × Array α) :
    haarPlace c stride xs out i = do
      let detail ← Checked.set out.1 i ((ahead xs stride ⟨i, hi⟩ - xs[i]) * c)
      let approximation ← Checked.set out.2 i ((ahead xs stride ⟨i, hi⟩ + xs[i]) * c)
      return (detail, approximation) := by
  have hpos : xs.size ≠ 0 := by omega
  have hmod : Checked.mod (i + stride) xs.size = .ok ((i + stride) % xs.size) :=
    Checked.mod_eq_ok_iff.2 ⟨hpos, rfl⟩
  rw [haarPlace, hmod]
  dsimp only [bind, Except.bind]
  rw [Checked.get_eq_ok (Nat.mod_lt _ (Nat.pos_of_ne_zero hpos)), Checked.get_eq_ok hi]
  rfl

theorem haarPlace_eq_error (hi : i < xs.size) {out : Array α × Array α}
    (hout : out.1.size ≤ i ∨ out.2.size ≤ i) :
    haarPlace c stride xs out i = .error .outOfRange := by
  rw [haarPlace_eq hi]
  by_cases hdetail : out.1.size ≤ i
  · rw [Checked.set_eq_error _ hdetail]
    rfl
  · rw [Checked.set_eq_ok _ (Nat.not_le.1 hdetail),
      Checked.set_eq_error _ (hout.resolve_left hdetail)]
    rfl

def writtenUpTo (detail approximation differences sums : Array α) (count : Nat) :
    Array α × Array α :=
  (Samples.overwrite detail (differences.extract 0 count),
    Samples.overwrite approximation (sums.extract 0 count))

theorem haarPlace_writtenUpTo {differences sums : Array α} (hi : i < xs.size)
    (hdifference : differences[i]? = some ((ahead xs stride ⟨i, hi⟩ - xs[i]) * c))
    (hsum : sums[i]? = some ((ahead xs stride ⟨i, hi⟩ + xs[i]) * c)) (hdetail : i < detail.size)
    (happroximation : i < approximation.size) :
    haarPlace c stride xs (writtenUpTo detail approximation differences sums i) i =
      .ok (writtenUpTo detail approximation differences sums (i + 1)) := by
  rw [haarPlace_eq hi]
  dsimp only [writtenUpTo]
  rw [Samples.set_overwrite hdifference hdetail, Samples.set_overwrite hsum happroximation]
  rfl

theorem haarLoop_eq (c : α) (stride : Nat) (xs detail approximation : Array α) :
    haarLoop c stride xs detail approximation = haarStep c stride xs detail approximation := by
  have hstart (differences sums : Array α) : (detail, approximation) =
      writtenUpTo detail approximation differences sums 0 := by
    simp [writtenUpTo]
  rw [haarLoop, haarStep, hstart (Array.ofFn fun i => (ahead xs stride i - xs[i]) * c)
    (Array.ofFn fun i => (ahead xs stride i + xs[i]) * c)]
  split
  · rename_i hroom
    rw [foldlM_range_eq_ok fun i hi => haarPlace_writtenUpTo hi (by simp [hi]) (by simp [hi])
      (by omega) (by omega), writtenUpTo]
    simp [Array.extract_eq_self_of_le]
  · rename_i hroom
    have hfirst : min detail.size approximation.size < xs.size := by omega
    refine foldlM_range_eq_error (fun i hi => ?_) hfirst ?_
    · have hplace : i < xs.size := Nat.lt_trans hi hfirst
      exact haarPlace_writtenUpTo hplace (by simp [hplace]) (by simp [hplace]) (by omega) (by omega)
    · apply haarPlace_eq_error hfirst
      simpa [writtenUpTo] using Nat.le_total detail.size approximation.size

/-- The levels from `level` on, where the distance at a level is taken from the level before. -/
def refineLoop (c : α) : (count level : Nat) → Array α → Sums α → Except Fault (Array α × Sums α)
  | 0, _, detail, sums => .ok (detail, sums)
  | count + 1, level, detail, sums => do
    let before ← Checked.sub level 1
    let (detail', next') ← haarLoop c (1 <<< before) sums.approximation detail sums.next
    refineLoop c count (level + 1) detail' ⟨next', sums.approximation⟩

theorem refineLoop_eq (c : α) (count : Nat) {level : Nat} (hlevel : 1 ≤ level) (detail : Array α)
    (sums : Sums α) : refineLoop c count level detail sums = refine c count level detail sums := by
  induction count generalizing level detail sums with
  | zero => rfl
  | succ count ih =>
    rw [refineLoop, refine, Checked.sub_eq_ok hlevel]
    dsimp only [bind, Except.bind]
    rw [haarLoop_eq]
    cases haarStep c (1 <<< (level - 1)) sums.approximation detail sums.next with
    | error e => rfl
    | ok out => exact ih (Nat.le_succ_of_le hlevel) _ _

def detailLoop (c : α) (level : Nat) (xs out : Array α) (sums : Sums α) :
    Except Fault (Array α × Sums α) := do
  let (detail, approximation) ← haarLoop c 1 xs out sums.approximation
  refineLoop c (level - 1) 2 detail ⟨approximation, sums.next⟩

theorem detailLoop_eq (c : α) (level : Nat) (xs out : Array α) (sums : Sums α) :
    detailLoop c level xs out sums = waveletDetail c level xs out sums := by
  simp only [detailLoop, waveletDetail, haarLoop_eq, refineLoop_eq c _ Nat.one_le_ofNat]

def processLoop (s : Settings) (pool : ScratchPool (Sums Single)) (xs out : Array Single) :
    Except Fault (Array Single × ScratchPool (Sums Single)) := do
  let (out', pool') ←
    if 0 < s.level then do
      let (pool', out') ← pool.borrow fun sums rest => do
        let (out', sums') ← detailLoop Single.invSqrtTwo s.level xs out sums
        return (sums', rest, out')
      pure (out', pool')
    else pure (difference xs out, pool)
  return (if s.rectify then rectified out' else out', pool')

def workLoop : Work Settings Unit (ScratchPool (Sums Single)) (Array Single) (Array Single) :=
  .perElement fun s _ pool xs out => do
    let (out', pool') ← processLoop s pool xs out
    return ⟨out', pool', []⟩

theorem workLoop_eq : kernel.work = workLoop := by
  simp only [workLoop, processLoop, detailLoop_eq]
  rfl

end Difference

namespace Spectrum

variable {α : Type}

def storeBin (bins buffer : Array (Bin α)) (bin : Nat) : Except Fault (Array (Bin α)) := do
  Checked.set buffer bin (← Checked.get bins bin)

def storeLoop (buffer bins : Array (Bin α)) : Except Fault (Array (Bin α)) :=
  (List.range bins.size).foldlM (storeBin bins) buffer

theorem storeBin_eq {bins : Array (Bin α)} {i : Nat} (hi : i < bins.size)
    (buffer : Array (Bin α)) : storeBin bins buffer i = Checked.set buffer i bins[i] := by
  rw [storeBin, Checked.get_eq_ok hi]
  rfl

theorem storeLoop_eq (buffer bins : Array (Bin α)) :
    storeLoop buffer bins = storeBins buffer bins := by
  have hstep {i : Nat} (hi : i < bins.size) (hbuffer : i < buffer.size) :
      storeBin bins (Samples.overwrite buffer (bins.extract 0 i)) i =
        .ok (Samples.overwrite buffer (bins.extract 0 (i + 1))) := by
    rw [storeBin_eq hi, Samples.set_overwrite (Array.getElem?_eq_getElem hi) hbuffer]
  rw [storeLoop, storeBins]
  split
  · rename_i hroom
    have hloop := foldlM_range_eq_ok fun i (hi : i < bins.size) => hstep hi (by omega)
    simpa using hloop
  · rename_i hroom
    have hfirst : buffer.size < bins.size := by omega
    have hloop := foldlM_range_eq_error (fun i hi => hstep (Nat.lt_trans hi hfirst) hi) hfirst
      ((storeBin_eq hfirst _).trans (Checked.set_eq_error _ (by simp)))
    simpa using hloop

/-- The signal of a spectrum, whose bins are stored one after the other. -/
def inverseLoop [Zero α] [One α] [Neg α] [Mul α] [Div α] [NatCast α] (plan : Plan α)
    (xs out : Array α) : Except Fault (Array α × Plan α) :=
  plan.run fun buffer => do
    let length := out.size
    let stored ← storeLoop buffer ((toBins xs).extract 0 (length / 2 + 1))
    let signal := plan.transform (← mirror length stored)
    let scale : α := 1 / (length : α)
    return (signal, Samples.overwrite out (signal.map fun z => z.re * scale))

def inverseWorkLoop : Work Unit Unit (Option (Plan Single)) (Array Single) (Array Single) :=
  planned (k := Signal) "RDFTInverse" inverseLoop

theorem inverseWorkLoop_eq : inverseKernel.work = inverseWorkLoop := by
  have hinverse : inverseLoop (α := Single) = inverse := by
    funext plan xs out
    simp only [inverseLoop, inverse, storeLoop_eq]
  rw [inverseWorkLoop, hinverse]
  rfl

end Spectrum

namespace Tempo

section Peaks

variable {α : Type} [LT α] [DecidableLT α] [LE α] [DecidableLE α]

/-- Whether a value lies above its left neighbour and not below its right one, which is read only
then. -/
def peakAt (values : Array α) (i : Nat) : Except Fault Bool := do
  let x ← Checked.get values i
  let left ← Checked.get values (← Checked.sub i 1)
  if left < x then
    let right ← Checked.get values (i + 1)
    return decide (right ≤ x)
  else return false

/-- The peaks of all positions that have two neighbours. -/
def maximaLoop (values : Array α) : Except Fault (List Nat) :=
  (List.range' 1 (values.size - 1 - 1)).filterM (peakAt values)

theorem peakAt_eq_ok {values : Array α} {i : Nat} (hi : 1 ≤ i) (hlast : i + 1 < values.size) :
    peakAt values i = .ok (isPeak values i) := by
  have hplace : i < values.size := Nat.lt_of_succ_lt hlast
  have hbefore : i - 1 < values.size := Nat.lt_of_le_of_lt (Nat.sub_le i 1) hplace
  rw [peakAt, isPeak, Checked.get_eq_ok hplace, Checked.sub_eq_ok hi]
  dsimp only [bind, Except.bind]
  rw [Checked.get_eq_ok hbefore, Checked.get_eq_ok hlast, Array.getElem?_eq_getElem hbefore,
    Array.getElem?_eq_getElem hplace, Array.getElem?_eq_getElem hlast]
  by_cases hleft : values[i - 1] < values[i] <;>
    simp [hleft, Nat.lt_of_succ_le hi, pure, Except.pure]

theorem lt_size_of_isPeak {values : Array α} {i : Nat} (h : isPeak values i = true) :
    i + 1 < values.size := by
  unfold isPeak at h
  split at h
  · rename_i hright
    exact (Array.getElem?_eq_some_iff.1 hright).1
  · cases h

theorem filter_isPeak (values : Array α) :
    (List.range' 1 (values.size - 1 - 1)).filter (isPeak values) = localMaxima values := by
  have hfirst : isPeak values 0 = false :=
    Bool.eq_false_iff.2 fun h => Nat.lt_irrefl 0 (pos_of_isPeak h)
  have hlast (i : Nat) (hi : values.size ≤ i + 1) : isPeak values i = false :=
    Bool.eq_false_iff.2 fun h => Nat.not_lt.2 hi (lt_size_of_isPeak h)
  unfold localMaxima
  match hsize : values.size with
  | 0 => rfl
  | 1 => simp [hfirst]
  | n + 2 =>
    rw [List.range_succ, List.filter_append, List.range_eq_range', List.range'_succ]
    simp [hfirst, hlast (n + 1) (Nat.le_of_eq hsize)]

theorem maximaLoop_eq_ok (values : Array α) : maximaLoop values = .ok (localMaxima values) := by
  rw [maximaLoop, ← filter_isPeak]
  apply filterM_eq_ok
  intro i hi
  obtain ⟨hpos, hlt⟩ := List.mem_range'_1.1 hi
  exact peakAt_eq_ok hpos (by omega)

variable [Zero α]

def withEnergy (values : Array α) (i : Nat) : Except Fault (Nat × α) := do
  return (i, ← Checked.get values i)

/-- The strongest peaks, compared by energies that are read before. -/
def strongestLoop (values : Array α) (count : Nat) : Except Fault (List Nat) := do
  let maxima ← maximaLoop values
  let peaks ← maxima.mapM (withEnergy values)
  let byEnergy := peaks.mergeSort fun a b => b.2 ≤ a.2
  return ((byEnergy.take count).map Prod.fst).mergeSort (· ≤ ·)

theorem strongestLoop_eq_ok (values : Array α) (count : Nat) :
    strongestLoop values count = .ok (strongest values count) := by
  have hread : ∀ i ∈ localMaxima values, withEnergy values i = .ok (i, values[i]?.getD 0) := by
    intro i hi
    have hlt : i < values.size := List.mem_range.1 (List.mem_filter.1 hi).1
    rw [withEnergy, Checked.get_eq_ok hlt, Array.getElem?_eq_getElem hlt]
    rfl
  have hsort : ((localMaxima values).map fun i => (i, values[i]?.getD 0)).mergeSort
      (fun a b => b.2 ≤ a.2) = ((localMaxima values).mergeSort fun a b =>
        (values[b]?.getD 0) ≤ (values[a]?.getD 0)).map fun i => (i, values[i]?.getD 0) :=
    (List.map_mergeSort (f := fun i => (i, values[i]?.getD 0)) fun _ _ _ _ => rfl).symm
  rw [strongestLoop, maximaLoop_eq_ok]
  simp only [bind, Except.bind, mapM_eq_ok hread, hsort, ← List.map_take, List.map_map]
  simp [Function.comp_def, strongest, pure, Except.pure]

end Peaks

section Search

variable {α : Type} [Add α] [Sub α] [Mul α] [Div α] [Zero α] [NatCast α] [LT α] [DecidableLT α]
  [LE α] [DecidableLE α] [Rounding α]

def analyzeLoop (s : Settings α) (rate : α) (group : List (Array α)) :
    Except Fault (List (Peak α)) := do
  let coarse ← search s.pulses rate group (s.minTempo : α) (s.maxTempo : α) s.coarse #[]
  let positions ← strongestLoop coarse.energies s.peaks
  let (peaks, _) ← positions.foldlM (fun acc position => do
    let (peak, buffer) ← refinePeak s rate group acc.2 position
    return (acc.1 ++ [peak], buffer)) (([] : List (Peak α)), coarse.buffer)
  return peaks

theorem analyzeLoop_eq (s : Settings α) (rate : α) (group : List (Array α)) :
    analyzeLoop s rate group = analyze s rate group := by
  simp only [analyzeLoop, strongestLoop_eq_ok]
  rfl

end Search

def groupsLoop (s : Settings Single) (rate : Single) (signals : Array (Array Single))
    (outs : Array (Array (Vector Single 2))) :
    Except Fault (Array (Array (Vector Single 2))) := do
  let groups := (Samples.chunks s.bands signals).map Array.toList
  let (done, ()) ← Samples.zipWithM
    (fun () group out => return (report (← analyzeLoop s rate group) out, ())) () groups outs.toList
  return done.toArray

theorem groupsLoop_eq (s : Settings Single) (rate : Single) (signals : Array (Array Single))
    (outs : Array (Array (Vector Single 2))) :
    groupsLoop s rate signals outs = work s rate signals outs := by
  simp only [groupsLoop, analyzeLoop_eq]
  rfl

def workLoop : Work (Settings Single) Single Unit (Array Single) (Array (Vector Single 2)) :=
  .wholeBatch fun s rate _ signals outs => do
    return ⟨← groupsLoop s rate signals outs, (), []⟩

theorem workLoop_eq : kernel.work = workLoop := by
  simp only [workLoop, groupsLoop_eq]
  rfl

end Tempo

namespace Kernel

/-- The kernels that address single values or slices, with their work as loops. Where the work has
no loop of its own here, each of its accesses is a checked step already. -/
inductive Guarded :
    (k : Kernel) → Work k.Settings k.Shape k.Plan k.input.Element k.output.Element → Prop
  | framing : Guarded Framing.kernel Framing.kernel.work
  | padding : Guarded Padding.kernel Padding.kernel.work
  | forward : Guarded Spectrum.forwardKernel Spectrum.forwardKernel.work
  | inverse : Guarded Spectrum.inverseKernel Spectrum.inverseWorkLoop
  | difference : Guarded Difference.kernel Difference.workLoop
  | subbands : Guarded Subbands.kernel Subbands.kernel.work
  | autocorrelation : Guarded Autocorrelation.kernel Autocorrelation.kernel.work
  | tempo : Guarded Tempo.kernel Tempo.workLoop

theorem work_eq_of_guarded {k : Kernel}
    {work : Work k.Settings k.Shape k.Plan k.input.Element k.output.Element}
    (h : Guarded k work) : k.work = work := by
  cases h with
  | framing | padding | forward | subbands | autocorrelation => rfl
  | inverse => exact Spectrum.inverseWorkLoop_eq
  | difference => exact Difference.workLoop_eq
  | tempo => exact Tempo.workLoop_eq

end Kernel

end Timbre
