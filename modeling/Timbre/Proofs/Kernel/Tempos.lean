import Timbre.Proofs.Kernel.Maxima
import Timbre.Proofs.Kernel.Passes
import Timbre.Proofs.Kernel.Separation
import Timbre.Proofs.Number.Values

/-! # Reported tempos

Each of the strongest maxima of the coarse pass is reported with the best tempo of a fine pass
around it, in the order of their positions, and the slots behind them hold zeros. In exact
arithmetic the fine passes do not overlap, since no two maxima are adjacent: so the tempos increase.
Main statement: `reported_tempos`.
-/
namespace Timbre.Tempo

/-- A coarse pass, and a peak for each of the strongest positions of it. -/
structure Finds {α : Type} [Add α] [Sub α] [Mul α] [Div α] [Zero α] [NatCast α] [LT α]
    [DecidableLT α] [LE α] [DecidableLE α] [Rounding α] (s : Settings α) (rate : α)
    (group : List (Array α)) (coarse : Pass α) (peaks : List (Peak α)) : Prop where
  search_eq : search s.pulses rate group (s.minTempo : α) (s.maxTempo : α) s.coarse #[] = .ok coarse
  analyze_eq : analyze s rate group = .ok peaks
  refines : List.Forall₂ (Refines s rate group) (strongest coarse.energies s.peaks) peaks

section Finding

variable {α : Type} [Zero α] [LT α] [LE α] [DecidableLT α] [DecidableLE α]

theorem length_strongest_le (values : Array α) (count : Nat) :
    (strongest values count).length ≤ count := by
  rw [strongest_eq, List.length_mergeSort]
  exact List.length_take_le count _

variable [Add α] [Sub α] [Mul α] [Div α] [NatCast α] [Rounding α] {s : Settings α} {rate : α}
  {group : List (Array α)} {coarse : Pass α} {peaks : List (Peak α)}

theorem exists_finds (hpulses : 0 < s.pulses) (rate : α) (group : List (Array α)) :
    ∃ coarse peaks, Finds s rate group coarse peaks := by
  obtain ⟨coarse, peaks, hsearch, hanalyze, hrefines⟩ := exists_analyze_refines hpulses rate group
  exact ⟨coarse, peaks, hsearch, hanalyze, hrefines⟩

theorem Finds.length_le (h : Finds s rate group coarse peaks) : peaks.length ≤ s.peaks :=
  h.refines.length_eq ▸ length_strongest_le coarse.energies s.peaks

end Finding

theorem ordered_single {values : Array Single} (h : ∀ x ∈ values, x.isFinite) :
    Ordered values fun i => (heightAt values i).value := by
  have hfinite (i : Nat) : (heightAt values i).isFinite := by
    unfold heightAt
    cases hi : values[i]? with
    | none => decide
    | some x => exact h x (Array.mem_of_getElem? hi)
  exact ⟨fun i j => Single.lt_iff_value_lt (hfinite i) (hfinite j),
    fun i j => Single.le_iff_value_le (hfinite i) (hfinite j)⟩

theorem IsMaximum.value_pos {values : Array Single} {i : Nat}
    (hvalues : ∀ x ∈ values, x.isFinite ∧ 0 ≤ x) (h : IsMaximum values i) :
    0 < (heightAt values i).value := by
  have hordered := ordered_single fun x hx => (hvalues x hx).1
  have hleft : 0 ≤ (heightAt values (i - 1)).value := by
    unfold heightAt
    cases hi : values[i - 1]? with
    | none => decide +kernel
    | some x =>
      obtain ⟨hfinite, hx⟩ := hvalues x (Array.mem_of_getElem? hi)
      have hzero : (0 : Single).value = 0 := by decide +kernel
      exact hzero ▸ (Single.le_iff_value_le (by decide) hfinite).1 hx
  exact hleft.trans_lt ((hordered.lt_iff _ _).1 h.left)

/-- Of energies that are not negative, an order by patterns chooses the same. -/
theorem strongest_eq_of_rank {values : Array Single}
    (hvalues : ∀ x ∈ values, x.isFinite ∧ 0 ≤ x) (count : Nat) :
    strongest values count = (((localMaxima values).mergeSort fun a b =>
      (heightAt values b).rank ≤ (heightAt values a).rank).take count).mergeSort (· ≤ ·) := by
  have hordered := ordered_single fun x hx => (hvalues x hx).1
  have hcompare : ∀ a ∈ localMaxima values, ∀ b ∈ localMaxima values,
      decide (heightAt values b ≤ heightAt values a) =
        decide ((heightAt values b).rank ≤ (heightAt values a).rank) := by
    intro a ha b hb
    have ha := (mem_localMaxima.1 ha).value_pos hvalues
    have hb := (mem_localMaxima.1 hb).value_pos hvalues
    rw [decide_eq_decide, hordered.le_iff, Single.value_le_iff_rank_le hb ha]
  have hranked : ranked values = (localMaxima values).mergeSort fun a b =>
      (heightAt values b).rank ≤ (heightAt values a).rank := by
    simpa [ranked] using List.map_mergeSort (f := id) hcompare
  rw [strongest_eq, hranked]

theorem ordered_linear {K : Type} [Zero K] [LinearOrder K] (values : Array K) :
    Ordered values (heightAt values) :=
  ⟨fun _ _ => Iff.rfl, fun _ _ => Iff.rfl⟩

theorem toList_report {α : Type} [Zero α] {peaks : List (Peak α)} {out : Array (Vector α 2)}
    (h : peaks.length ≤ out.size) : (report peaks out).toList =
      peaks.map (fun p => #v[p.tempo, p.energy]) ++
        List.replicate (out.size - peaks.length) #v[0, 0] := by
  have hfront : (peaks.map fun p => #v[p.tempo, p.energy]).take out.size =
      peaks.map fun p => #v[p.tempo, p.energy] := List.take_of_length_le (by simpa using h)
  have hzeros : Vector.replicate 2 (0 : α) = #v[0, 0] := rfl
  rw [report, Samples.overwrite, Array.toList_append, Array.map_const', hzeros]
  simp [hfront]

section Exact

variable {K : Type} [Field K] [LinearOrder K] [FloorRing K] {s : Settings K} {rate : K}
  {group : List (Array K)} {position i j : Nat} {peak : Peak K}

theorem Refines.leads (hpulses : 0 < s.pulses) (h : Refines s rate group position peak) :
    Leads (gridScore s.pulses rate group (fineLow s position) s.fine)
      (tempoAt (fineLow s position) s.fine) (fineLow s position)
      (searchSize (fineLow s position) (fineHigh s position) s.fine) peak := by
  obtain ⟨buffer, pass, hpass, rfl⟩ := h
  obtain ⟨pass', hpass', -, hleads⟩ := exists_search_exact hpulses rate group (fineLow s position)
    (fineHigh s position) s.fine buffer
  rw [hpass] at hpass'
  cases hpass'
  exact hleads

variable [IsStrictOrderedRing K]

theorem tempoAt_strictMono {low step : K} (hstep : 0 < step) : StrictMono (tempoAt low step) := by
  intro i j hij
  have hlt : step * (i : K) < step * j := mul_lt_mul_of_pos_left (Nat.cast_lt.2 hij) hstep
  unfold tempoAt
  linarith

theorem fineLow_lt_fineHigh (hcoarse : 0 < s.coarse) (position : Nat) :
    fineLow s position < fineHigh s position :=
  tempoAt_strictMono hcoarse (by omega)

/-- Passes around positions that are not adjacent share at most a bound. -/
theorem fineHigh_le_fineLow (hcoarse : 0 < s.coarse) (h : i + 2 ≤ j) :
    fineHigh s i ≤ fineLow s j :=
  (tempoAt_strictMono hcoarse).monotone (by omega)

theorem Refines.tempo_mem_Ico (hpulses : 0 < s.pulses) (hcoarse : 0 < s.coarse)
    (h : Refines s rate group position peak) :
    peak.tempo ∈ Set.Ico (fineLow s position) (fineHigh s position) :=
  (h.leads hpulses).tempo_mem_Ico (fineLow_lt_fineHigh hcoarse position)

theorem pairwise_fine (hcoarse : 0 < s.coarse) (values : Array K) (count : Nat) :
    (strongest values count).Pairwise fun i j => fineHigh s i ≤ fineLow s j := by
  have hselects := (ordered_linear values).selects_strongest count
  refine hselects.increasing.imp_of_mem fun hi hj hlt => fineHigh_le_fineLow hcoarse ?_
  exact (ordered_linear values).add_two_le (hselects.maximum _ hi) (hselects.maximum _ hj) hlt

theorem pairwise_tempo (hpulses : 0 < s.pulses) (hcoarse : 0 < s.coarse) {values : Array K}
    {peaks : List (Peak K)}
    (h : List.Forall₂ (Refines s rate group) (strongest values s.peaks) peaks) :
    peaks.Pairwise fun p q => p.tempo < q.tempo := by
  refine pairwise_of_forall₂ h (pairwise_fine hcoarse values s.peaks) fun i j p q hp hq hij => ?_
  calc p.tempo < fineHigh s i := (hp.tempo_mem_Ico hpulses hcoarse).2
    _ ≤ fineLow s j := hij
    _ ≤ q.tempo := (hq.tempo_mem_Ico hpulses hcoarse).1

end Exact

/-- The candidates of a sequence of finite energies are its local maxima, no two of which are
adjacent, and those chosen are the strongest, the lower of two equal ones first, in increasing
order. What is reported is the best tempo of the fine pass around each of them, and zeros in the
remaining slots. In exact arithmetic the tempos increase: each lies within the bounds of its own
fine pass, and the bounds of two passes have at most a point in common. -/
theorem reported_tempos {K : Type} [Field K] [LinearOrder K] [IsStrictOrderedRing K]
    [FloorRing K] :
    (∀ (values : Array Single) (count : Nat), (∀ x ∈ values, x.isFinite) →
      (∀ i, i ∈ localMaxima values ↔ IsMaximum values i) ∧
        (∀ i, IsMaximum values i → ¬IsMaximum values (i + 1)) ∧
        Selects values count (strongest values count)) ∧
    (∀ (s : Settings Single) (rate : Single) (group : List (Array Single))
      (out : Array (Vector Single 2)), 0 < s.pulses → out.size = s.peaks →
        ∃ coarse peaks, Finds s rate group coarse peaks ∧ (report peaks out).toList =
          peaks.map (fun p => #v[p.tempo, p.energy]) ++
            List.replicate (s.peaks - peaks.length) #v[0, 0]) ∧
    ∀ (s : Settings K) (rate : K) (group : List (Array K)), 0 < s.pulses → 0 < s.coarse →
      ∃ coarse peaks, Finds s rate group coarse peaks ∧
        Selects coarse.energies s.peaks (strongest coarse.energies s.peaks) ∧
        List.Forall₂ (fun i p => p.tempo ∈ Set.Ico (fineLow s i) (fineHigh s i))
          (strongest coarse.energies s.peaks) peaks ∧
        (strongest coarse.energies s.peaks).Pairwise (fun i j => fineHigh s i ≤ fineLow s j) ∧
        peaks.Pairwise fun p q => p.tempo < q.tempo := by
  refine ⟨fun values count hvalues => ?_, fun s rate group out hpulses hout => ?_,
    fun s rate group hpulses hcoarse => ?_⟩
  · have hordered := ordered_single hvalues
    exact ⟨fun i => mem_localMaxima, fun i => hordered.not_adjacent,
      hordered.selects_strongest count⟩
  · obtain ⟨coarse, peaks, hfinds⟩ := exists_finds hpulses rate group
    refine ⟨coarse, peaks, hfinds, ?_⟩
    rw [toList_report (hout ▸ hfinds.length_le), hout]
  · obtain ⟨coarse, peaks, hfinds⟩ := exists_finds hpulses rate group
    exact ⟨coarse, peaks, hfinds, (ordered_linear coarse.energies).selects_strongest s.peaks,
      hfinds.refines.imp fun i p hp => hp.tempo_mem_Ico hpulses hcoarse,
      pairwise_fine hcoarse coarse.energies s.peaks, pairwise_tempo hpulses hcoarse hfinds.refines⟩

/-- Six energies with two maxima, of which one is chosen; one slot for a rhythm of two beats, in
single precision and exactly. -/
theorem reported_tempos_six :
    Selects #[(1 : Single), 3, 2, 5, 5, 1] 1 (strongest #[(1 : Single), 3, 2, 5, 5, 1] 1) ∧
      (∃ coarse peaks, Finds ⟨1, 2, 20, 80, 20, 10, 1⟩ (2 : Single) [#[1, 0, 0, 1]] coarse peaks ∧
        (report peaks #[#v[7, 7]]).toList = peaks.map (fun p => #v[p.tempo, p.energy]) ++
          List.replicate (1 - peaks.length) #v[0, 0]) ∧
      ∃ coarse peaks, Finds ⟨1, 2, 20, 80, 20, 10, 1⟩ (2 : ℚ) [#[1, 0, 0, 1]] coarse peaks ∧
        peaks.Pairwise fun p q => p.tempo < q.tempo := by
  obtain ⟨hvalues, hslots, hexact⟩ := reported_tempos (K := ℚ)
  obtain ⟨-, -, hselects⟩ := hvalues #[1, 3, 2, 5, 5, 1] 1 (by decide +kernel)
  obtain ⟨coarse, peaks, hfinds, -, -, -, htempos⟩ :=
    hexact ⟨1, 2, 20, 80, 20, 10, 1⟩ 2 [#[1, 0, 0, 1]] (by decide) (by norm_num)
  exact ⟨hselects, hslots ⟨1, 2, 20, 80, 20, 10, 1⟩ 2 [#[1, 0, 0, 1]] #[#v[7, 7]] (by decide) rfl,
    coarse, peaks, hfinds, htempos⟩

end Timbre.Tempo
