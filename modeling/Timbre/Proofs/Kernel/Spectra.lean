import Timbre.Kernel.Autocorrelation
import Timbre.Proofs.Kernel.Plain
import Timbre.Proofs.Kernel.Scratch

/-! # What is left in buffers

A buffer keeps what the element before left in it, and an output what it held before. Neither is
seen. The front of a buffer is filled from the element and the rest of it with zeros or with the
mirror image of the front, and every place of an output is written. So for each element there is one
answer, which does not mention any of them.
-/
namespace Timbre

theorem Samples.overwrite_of_size_eq {α : Type} {output values : Array α} {n : Nat}
    (houtput : output.size = n) (hvalues : values.size = n) : overwrite output values = values := by
  have hsize : output.size = values.size := houtput.trans hvalues.symm
  rw [overwrite_of_size_le (Nat.le_of_eq hsize), hsize, Array.extract_size]

namespace Spectrum

variable {α : Type} {transform : Array (Bin α) → Array (Bin α)} {n : Nat}

theorem size_interleave (bins : Array (Bin α)) : (interleave bins).size = bins.size * 2 := by
  simp [interleave, Array.size_flatMap, Array.map_const', Array.sum_replicate_nat]

theorem size_stored (hpos : 2 ≤ n) {bins : Array (Bin α)} (hbins : bins.size = n) :
    ((interleave bins).extract 0 (n + 2)).size = n + 2 := by
  rw [Array.size_extract, size_interleave, hbins]
  omega

theorem size_toBins (xs : Array α) : (toBins xs).size = xs.size / 2 := by
  simp [toBins, Samples.pairs]

theorem forward_eq_ok [Zero α] (heven : n % 2 = 0) (hpos : 2 ≤ n) {xs out : Array α}
    (hxs : xs.size = n) (hspectrum : (transform (xs.map .ofReal)).size = n) {plan : Plan α}
    (hplan : plan.Supplied transform n) (hout : out.size = n + 2) :
    ∃ plan', forward plan xs out =
        .ok ((interleave (transform (xs.map .ofReal))).extract 0 (n + 2), plan') ∧
      plan'.Supplied transform n := by
  have hfill : (xs.map Bin.ofReal).size = n := by rw [Array.size_map, hxs]
  obtain ⟨_, pool⟩ := plan
  obtain rfl := hplan.transform_eq
  have hwhole : out.size / 2 * 2 = n + 2 := by omega
  refine hplan.exists_run (fun buffer hbuffer => ?_) hspectrum
  dsimp only
  rw [Samples.overwrite_of_size_eq hbuffer hfill, hwhole,
    Samples.overwrite_of_size_eq hout (size_stored hpos hspectrum)]

theorem exists_forward [Zero α] (htransform : ∀ bins, (transform bins).size = bins.size)
    (heven : n % 2 = 0) (hpos : 2 ≤ n) {xs : Array α} (hxs : xs.size = n) :
    ∃ ys : Array α, ys.size = n + 2 ∧ ∀ (plan : Plan α) (out : Array α),
      plan.Supplied transform n → out.size = n + 2 →
        ∃ plan', forward plan xs out = .ok (ys, plan') ∧ plan'.Supplied transform n := by
  have hspectrum : (transform (xs.map Bin.ofReal)).size = n := by
    rw [htransform, Array.size_map, hxs]
  exact ⟨_, size_stored hpos hspectrum, fun plan out => forward_eq_ok heven hpos hxs hspectrum⟩

section Mirror

variable [Neg α] {length : Nat} {buffer buffer' : Array (Bin α)}

theorem mirrorBin_eq_ok {bin : Nat} (hpos : 0 < bin) (hle : bin ≤ length)
    (hsize : buffer.size = length) (hbin : bin < buffer.size) :
    mirrorBin length buffer bin =
      .ok (buffer.setIfInBounds (length - bin) buffer[bin].conj) := by
  have hplace : length - bin < buffer.size := by omega
  simp only [mirrorBin, Checked.get_eq_ok hbin, Checked.sub_eq_ok hle, bind, Except.bind,
    Checked.set_eq_ok _ hplace, Array.setIfInBounds, dif_pos hplace]

theorem exists_mirror (hsize : buffer.size = length) :
    ∃ left, mirror length buffer = .ok left ∧ left.size = length := by
  refine exists_foldlM_eq_ok (fun left : Array (Bin α) => left.size = length) _ _ hsize
    fun left hleft bin hbin => ?_
  have hrange := List.mem_range'_1.1 hbin
  refine ⟨_, mirrorBin_eq_ok hrange.1 (by omega) hleft (by omega), ?_⟩
  rw [Array.size_setIfInBounds, hleft]

/-- Two buffers that agree up to the middle agree, after the bins from `start` on have been
mirrored, on all that is above their mirror images as well. -/
theorem foldlM_mirrorBin_eq (heven : length % 2 = 0) (count start : Nat) (hpos : 0 < start)
    (hcount : start + count = length / 2) (hsize : buffer.size = length)
    (hsize' : buffer'.size = length)
    (hagree : ∀ i, i ≤ length / 2 ∨ length - start < i → buffer[i]? = buffer'[i]?) :
    (List.range' start count).foldlM (mirrorBin length) buffer =
      (List.range' start count).foldlM (mirrorBin length) buffer' := by
  induction count generalizing start buffer buffer' with
  | zero =>
    have heq : buffer = buffer' := by
      apply Array.ext_getElem?
      intro i
      exact hagree i (by omega)
    rw [heq]
  | succ count ih =>
    have hbin : start < buffer.size := by omega
    have hbin' : start < buffer'.size := by omega
    have hsame : buffer[start] = buffer'[start] := by
      have hget := hagree start (.inl (by omega))
      rw [Array.getElem?_eq_getElem hbin, Array.getElem?_eq_getElem hbin'] at hget
      exact Option.some_inj.1 hget
    rw [List.range'_succ, List.foldlM_cons, List.foldlM_cons,
      mirrorBin_eq_ok hpos (by omega) hsize hbin, mirrorBin_eq_ok hpos (by omega) hsize' hbin',
      hsame]
    apply ih (start + 1) (Nat.succ_pos start) (by omega)
    · rw [Array.size_setIfInBounds, hsize]
    · rw [Array.size_setIfInBounds, hsize']
    · intro i hi
      rw [Array.getElem?_setIfInBounds, Array.getElem?_setIfInBounds, hsize, hsize']
      by_cases hplace : length - start = i
      · rw [if_pos hplace, if_pos hplace]
      · rw [if_neg hplace, if_neg hplace]
        exact hagree i (by omega)

theorem mirror_eq (heven : length % 2 = 0) (hpos : 2 ≤ length) (hsize : buffer.size = length)
    (hsize' : buffer'.size = length)
    (hagree : ∀ i, i ≤ length / 2 → buffer[i]? = buffer'[i]?) :
    mirror length buffer = mirror length buffer' := by
  apply foldlM_mirrorBin_eq heven _ 1 Nat.one_pos (by omega) hsize hsize'
  intro i hi
  by_cases hle : i ≤ length / 2
  · exact hagree i hle
  · have hout : length ≤ i := by omega
    rw [Array.getElem?_eq_none (by omega), Array.getElem?_eq_none (by omega)]

end Mirror

section Inverse

variable [Zero α] [One α] [Neg α] [Mul α] [Div α] [NatCast α] {xs : Array α}

/-- What is mirrored is the same in every buffer, for the bins reach up to the middle. -/
theorem inverse_eq_ok (heven : n % 2 = 0) (hpos : 2 ≤ n) (hxs : xs.size = n + 2)
    {stored mirrored : Array (Bin α)} (hstored : stored.size = n)
    (hagree : ∀ i, i ≤ n / 2 → stored[i]? = (toBins xs)[i]?)
    (hmirror : mirror n stored = .ok mirrored) (hsignal : (transform mirrored).size = n)
    {plan : Plan α} (hplan : plan.Supplied transform n) {out : Array α} (hout : out.size = n) :
    ∃ plan', inverse plan xs out =
        .ok ((transform mirrored).map fun z => z.re * (1 / (n : α)), plan') ∧
      plan'.Supplied transform n := by
  have hbins : (toBins xs).size = n / 2 + 1 := by
    rw [size_toBins]
    omega
  have hys : ((transform mirrored).map fun z => z.re * (1 / (n : α))).size = n := by
    rw [Array.size_map, hsignal]
  obtain ⟨_, pool⟩ := plan
  obtain rfl := hplan.transform_eq
  refine hplan.exists_run (fun buffer hbuffer => ?_) hsignal
  have hall : (toBins xs).extract 0 (n / 2 + 1) = toBins xs := by
    rw [← hbins, Array.extract_size]
  have hstore : storeBins buffer (toBins xs) = .ok (Samples.overwrite buffer (toBins xs)) :=
    if_pos (by omega)
  have hsame : mirror n (Samples.overwrite buffer (toBins xs)) = .ok mirrored := by
    rw [← hmirror]
    apply mirror_eq heven hpos ((Samples.size_overwrite _ _).trans hbuffer) hstored
    intro i hi
    rw [hagree i hi, Samples.getElem?_overwrite, if_pos (by omega)]
  simp only [hout, hall, hstore, hsame, bind, Except.bind, Samples.overwrite_of_size_eq hout hys]
  rfl

theorem exists_inverse (htransform : ∀ bins, (transform bins).size = bins.size)
    (heven : n % 2 = 0) (hpos : 2 ≤ n) (hxs : xs.size = n + 2) :
    ∃ ys : Array α, ys.size = n ∧ ∀ (plan : Plan α) (out : Array α),
      plan.Supplied transform n → out.size = n →
        ∃ plan', inverse plan xs out = .ok (ys, plan') ∧ plan'.Supplied transform n := by
  let stored := Samples.overwrite (Array.replicate n .zero) (toBins xs)
  have hstored : stored.size = n := (Samples.size_overwrite _ _).trans Array.size_replicate
  have hagree (i : Nat) (hi : i ≤ n / 2) : stored[i]? = (toBins xs)[i]? := by
    rw [Samples.getElem?_overwrite, size_toBins, Array.size_replicate, if_pos (by omega)]
  obtain ⟨mirrored, hmirror, hmirrored⟩ := exists_mirror hstored
  have hsignal : (transform mirrored).size = n := (htransform mirrored).trans hmirrored
  exact ⟨_, (Array.size_map).trans hsignal, fun plan out hplan hout =>
    inverse_eq_ok heven hpos hxs hstored hagree hmirror hsignal hplan hout⟩

end Inverse

theorem planned_eq {Settings Shape β : Type} {k : Kind} (name : String)
    (f : Plan β → Array Single → k.Element → Except Fault (k.Element × Plan β)) :
    ∃ run : Settings → Shape → Option (Plan β) → Array Single → k.Element →
        Except Fault (Written k.Element (Option (Plan β))), planned name f = .perElement run ∧
      ∀ settings shape plan xs out, run settings shape (some plan) xs out =
        (f plan xs out).map fun y => ⟨y.1, some y.2, []⟩ := by
  refine ⟨_, rfl, fun settings shape plan xs out => ?_⟩
  dsimp only
  cases f plan xs out <;> rfl

theorem requireEven_eq_ok {input : Format Signal} {minimum : Nat}
    (h : requireEven input minimum = .ok ()) : input.size % 2 = 0 ∧ minimum ≤ input.size := by
  unfold requireEven at h
  split at h
  · cases h
  · omega

theorem forward_accept_eq_ok {input output known : Format Signal} {count n : Nat}
    (h : (forwardKernel.accept () () input known count).answer = .ok (output, n)) :
    output = input.withSize (input.size + 2) ∧ input.size % 2 = 0 ∧ 2 ≤ input.size ∧ n = count := by
  dsimp only [forwardKernel] at h
  split at h
  · cases h
  · rename_i heven
    obtain ⟨hmod, hle⟩ := requireEven_eq_ok heven
    cases h
    exact ⟨rfl, hmod, hle, rfl⟩

theorem inverse_accept_eq_ok {input output known : Format Signal} {count n : Nat}
    (h : (inverseKernel.accept () () input known count).answer = .ok (output, n)) :
    input.size = output.size + 2 ∧ output.size % 2 = 0 ∧ 2 ≤ output.size ∧ n = count := by
  dsimp only [inverseKernel] at h
  split at h
  · cases h
  · rename_i heven
    obtain ⟨hmod, hle⟩ := requireEven_eq_ok heven
    rw [Checked.sub_eq_ok (by omega)] at h
    cases h
    rw [Format.size_withSize]
    exact ⟨by omega, by omega, by omega, rfl⟩

end Spectrum

namespace Autocorrelation

variable {α β : Type} {transform : Array (Bin β) → Array (Bin β)} {n : Nat}

/-- The values of a signal, and zeros behind them. -/
def padded [Zero β] (widen : α → β) (n : Nat) (xs : Array α) : Array β :=
  Array.ofFn fun i : Fin n => (xs[i.val]?.map widen).getD 0

@[simp] theorem size_padded [Zero β] (widen : α → β) (n : Nat) (xs : Array α) :
    (padded widen n xs).size = n := Array.size_ofFn

theorem fill_eq [Zero β] (widen : α → β) {buffer : Array (Bin β)} (hbuffer : buffer.size = n)
    (xs : Array α) : fill widen buffer xs = (padded widen n xs).map .ofReal := by
  subst hbuffer
  rw [padded, Array.map_ofFn]
  rfl

/-- The lag that an output position stands for, whatever its direction. -/
def lag (size index : Nat) : Nat :=
  if index ≤ size - 1 then size - 1 - index else index - (size - 1)

theorem lag_lt {size index : Nat} (hindex : index < size * 2 - 1) : lag size index < size := by
  unfold lag
  split <;> omega

theorem valueAt_eq_ok [Zero β] [Mul β] (narrow : β → α) (correlation : Array (Bin β)) (scale : β)
    {size index : Nat} (hindex : index < size * 2 - 1) (hsize : size ≤ correlation.size) :
    valueAt narrow correlation scale size index =
      .ok (narrow ((binAt correlation (lag size index)).re * scale)) := by
  have hplace : lag size index < correlation.size := Nat.lt_of_lt_of_le (lag_lt hindex) hsize
  have hget : Checked.get correlation (lag size index) =
      .ok (binAt correlation (lag size index)) := by
    rw [Checked.get_eq_ok hplace, binAt, Array.getD, dif_pos hplace]
    rfl
  unfold valueAt
  rw [Checked.sub_eq_ok (by omega)]
  exact bind_pure_eq_ok hget _

theorem mapM_valueAt_eq_ok [Zero β] [Mul β] (narrow : β → α) (correlation : Array (Bin β))
    (scale : β) {size : Nat} (hsize : size ≤ correlation.size) :
    (Array.range (size * 2 - 1)).mapM (valueAt narrow correlation scale size) =
      .ok ((Array.range (size * 2 - 1)).map fun index =>
        narrow ((binAt correlation (lag size index)).re * scale)) := by
  have hvalue : ∀ index ∈ (Array.range (size * 2 - 1)).toList,
      valueAt narrow correlation scale size index =
        .ok (narrow ((binAt correlation (lag size index)).re * scale)) := fun index hindex =>
    valueAt_eq_ok narrow correlation scale (by simpa using hindex) hsize
  rw [Array.mapM_eq_mapM_toList, mapM_eq_ok hvalue, ← Array.toList_map]
  rfl

section Correlate

variable [Zero β] [Add β] [Mul β]

/-- The transform of the power spectrum of a signal. -/
def correlation (transform : Array (Bin β) → Array (Bin β)) (signal : Array β) : Array (Bin β) :=
  transform ((transform (signal.map .ofReal)).map fun z => .ofReal z.normSq)

variable [One β] [Div β] [NatCast β] {xs : Array α} (widen : α → β) (narrow : β → α)

theorem correlate_eq_ok (hn : xs.size ≤ n)
    (hsize : (correlation transform (padded widen n xs)).size = n) {plan : Plan β}
    (hplan : plan.Supplied transform n) {out : Array α} (hout : out.size = xs.size * 2 - 1) :
    ∃ plan', correlate widen narrow plan xs out =
        .ok ((Array.range (xs.size * 2 - 1)).map fun index => narrow
          ((binAt (correlation transform (padded widen n xs)) (lag xs.size index)).re *
            (1 / (n : β))), plan') ∧
      plan'.Supplied transform n := by
  obtain ⟨_, pool⟩ := plan
  obtain rfl := hplan.transform_eq
  refine hplan.exists_run (fun buffer hbuffer => ?_) hsize
  have hvalues := mapM_valueAt_eq_ok narrow _ (1 / (n : β)) (hsize.symm ▸ hn)
  simp only [fill_eq widen hbuffer, hbuffer, hout]
  exact bind_pure_eq_ok hvalues _

theorem exists_correlate (htransform : ∀ bins, (transform bins).size = bins.size)
    (hn : xs.size ≤ n) :
    ∃ ys : Array α, ys.size = xs.size * 2 - 1 ∧ ∀ (plan : Plan β) (out : Array α),
      plan.Supplied transform n → out.size = xs.size * 2 - 1 →
        ∃ plan', correlate widen narrow plan xs out = .ok (ys, plan') ∧
          plan'.Supplied transform n := by
  have hsize : (correlation transform (padded widen n xs)).size = n := by
    simp only [correlation, htransform, Array.size_map, size_padded]
  refine ⟨_, ?_, fun plan out hplan hout =>
    correlate_eq_ok widen narrow hn hsize hplan hout⟩
  rw [Array.size_map, Array.size_range]

end Correlate

theorem accept_eq_ok {input output known : Format Signal} {count n : Nat}
    (h : (kernel.accept () () input known count).answer = .ok (output, n)) :
    output = input.withSize (input.size * 2 - 1) ∧ n = count := by
  dsimp only [kernel] at h
  split at h
  · cases h
  · rw [Checked.sub_eq_ok (by omega)] at h
    cases h
    exact ⟨rfl, rfl⟩

end Autocorrelation

end Timbre
