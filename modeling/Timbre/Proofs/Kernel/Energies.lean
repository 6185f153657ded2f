import Timbre.Proofs.Kernel.Limits
import Timbre.Proofs.Kernel.Tempos

/-! # Energies of reported tempos

A coarse maximum lies above another energy, so the group is not silent and every tempo of every pass
has some energy. As long as a fine step fits into the two coarse steps around a maximum, the fine
pass scores some tempo, and what is reported is the greatest of its energies. A wider fine step is
accepted as well: then the fine passes score nothing, and every tempo found is reported without any
energy. Main statement: `reported_energies`.
-/
namespace Timbre.Tempo

theorem Finds.mem_report {α : Type} [Add α] [Sub α] [Mul α] [Div α] [Zero α] [NatCast α] [LT α]
    [DecidableLT α] [LE α] [DecidableLE α] [Rounding α] {s : Settings α} {rate : α}
    {group : List (Array α)} {coarse : Pass α} {peaks : List (Peak α)} {out : Array (Vector α 2)}
    (h : Finds s rate group coarse peaks) (hout : out.size = s.peaks) {row : Vector α 2}
    (hrow : row ∈ report peaks out) : row = #v[0, 0] ∨
      ∃ position ∈ strongest coarse.energies s.peaks, 0 < position ∧
        ∃ p, Refines s rate group position p ∧ row = #v[p.tempo, p.energy] := by
  rw [← Array.mem_toList_iff, toList_report (hout ▸ h.length_le), List.mem_append] at hrow
  rcases hrow with hrow | hrow
  · obtain ⟨p, hp, rfl⟩ := List.mem_map.1 hrow
    obtain ⟨position, hposition, hrefine⟩ := exists_of_mem_forall₂ h.refines hp
    exact .inr ⟨position, hposition, pos_of_mem_strongest hposition, p, hrefine, rfl⟩
  · exact .inl (List.mem_replicate.1 hrow).2

theorem heightAt_ofFn {α : Type} [Zero α] {n i : Nat} (f : Nat → α) (hi : i < n) :
    heightAt (Array.ofFn fun i : Fin n => f i) i = f i := by
  simp [heightAt, hi]

theorem fineHigh_sub_fineLow {K : Type} [Field K] (s : Settings K) {position : Nat}
    (hposition : 0 < position) :
    fineHigh s position - fineLow s position = 2 * s.coarse := by
  obtain ⟨before, rfl⟩ := Nat.exists_eq_succ_of_ne_zero hposition.ne'
  unfold fineHigh fineLow tempoAt
  push_cast [Nat.succ_sub_one]
  ring

section Exact

variable {K : Type} [Field K] [LinearOrder K] [FloorRing K] {s : Settings K} {rate : K}
  {group : List (Array K)} {coarse : Pass K} {peaks : List (Peak K)} {peak : Peak K}
  {position : Nat}

/-- The energies of the tempos that the fine pass around a position scores. -/
def fineEnergies (s : Settings K) (rate : K) (group : List (Array K)) (position : Nat) : Set K :=
  gridScore s.pulses rate group (fineLow s position) s.fine ''
    Set.Iio (searchSize (fineLow s position) (fineHigh s position) s.fine)

theorem Finds.energies_eq (hpulses : 0 < s.pulses) (h : Finds s rate group coarse peaks) :
    coarse.energies = Array.ofFn fun i : Fin (searchSize (s.minTempo : K) s.maxTempo s.coarse) =>
      gridScore s.pulses rate group s.minTempo s.coarse i := by
  obtain ⟨pass, hpass, henergies, -⟩ := exists_search_exact hpulses rate group (s.minTempo : K)
    (s.maxTempo : K) s.coarse #[]
  rw [h.search_eq] at hpass
  cases hpass
  exact henergies

variable [IsStrictOrderedRing K]

theorem gridScore_nonneg (pulses : Nat) (rate : K) (group : List (Array K)) (low step : K)
    (i : Nat) : 0 ≤ gridScore pulses rate group low step i :=
  groupScore_nonneg pulses _ group

theorem Finds.sounds (hpulses : 0 < s.pulses) (h : Finds s rate group coarse peaks)
    (hposition : position ∈ strongest coarse.energies s.peaks) : Sounds group := by
  have hmaximum := ((ordered_linear _).selects_strongest _).maximum position hposition
  have hsize := hmaximum.lt_size
  have hleft := hmaximum.left
  rw [h.energies_eq hpulses] at hsize hleft
  rw [Array.size_ofFn] at hsize
  rw [heightAt_ofFn _ (by omega), heightAt_ofFn _ (by omega)] at hleft
  exact (gridScore_pos_iff hpulses rate group _ _ position).1
    ((gridScore_nonneg _ _ _ _ _ _).trans_lt hleft)

/-- Where a fine step fits into two coarse ones, the fine pass finds a tempo with the greatest of
its energies. -/
theorem Refines.isGreatest (hpulses : 0 < s.pulses) (hfine : 0 < s.fine)
    (hfits : s.fine ≤ 2 * s.coarse) (hposition : 0 < position) (hsounds : Sounds group)
    (h : Refines s rate group position peak) :
    0 < peak.energy ∧ peak.energy = tempoScore s.pulses rate group peak.tempo ∧
      IsGreatest (fineEnergies s rate group position) peak.energy := by
  have hgrid : 0 < searchSize (fineLow s position) (fineHigh s position) s.fine := by
    rw [searchSize_pos_iff hfine, fineHigh_sub_fineLow s hposition]
    exact hfits
  obtain ⟨hpos, i, -, rfl, hgreatest⟩ := (h.leads hpulses).isGreatest hgrid fun i _ =>
    (gridScore_pos_iff hpulses rate group _ _ i).2 hsounds
  exact ⟨hpos, rfl, hgreatest⟩

/-- Where it does not, the fine pass leaves its lowest tempo without any energy. -/
theorem Refines.eq_of_lt (hpulses : 0 < s.pulses) (hfine : 0 < s.fine)
    (hwide : 2 * s.coarse < s.fine) (hposition : 0 < position)
    (h : Refines s rate group position peak) : peak = ⟨fineLow s position, 0⟩ := by
  have hgrid : ¬0 < searchSize (fineLow s position) (fineHigh s position) s.fine := by
    rw [searchSize_pos_iff hfine, fineHigh_sub_fineLow s hposition]
    exact not_le.2 hwide
  cases h.leads hpulses with
  | silent _ => rfl
  | found i hi _ _ _ => exact absurd (Nat.zero_lt_of_lt hi) hgrid

omit [FloorRing K] in
theorem fineLow_pos (hcoarse : 0 < s.coarse) (htempo : 0 < s.minTempo) (position : Nat) :
    0 < fineLow s position := by
  have hstart : (0 : K) < s.minTempo := Nat.cast_pos.2 htempo
  have hforward : 0 ≤ s.coarse * ((position - 1 : Nat) : K) :=
    mul_nonneg hcoarse.le (Nat.cast_nonneg _)
  unfold fineLow tempoAt
  linarith

end Exact

def beats : Array ℚ := Array.ofFn fun i : Fin 201 => if i.val = 0 ∨ i.val = 200 then 1 else 0

theorem strongest_rise {a b : ℚ} (h : a < b) (count : Nat) :
    strongest #[a, b, b] (count + 1) = [1] := by
  have hmaxima : localMaxima #[a, b, b] = [1] := by
    simp [localMaxima, List.range_succ, isPeak, h]
  simp [strongest, hmaxima]

theorem combScore_beats_lt : combScore 3 201 beats < combScore 3 200 beats := by
  have hsignal : ∀ x ∈ beats, 0 ≤ x := by
    intro x hx
    obtain ⟨i, rfl⟩ := Array.mem_ofFn.1 hx
    split <;> norm_num
  rw [combScore_of_size_le (by simp [beats])]
  exact lt_combScore_of_meet (by decide) hsignal (i := 0) (by simp [beats]) (by simp [beats])

/-- The tempos 597, 598 and 599, whose periods at 2000 Hz are 201, 200 and 200 samples. -/
def narrow (fine : Single) : Settings Single :=
  { defaults with minTempo := 597, maxTempo := 600, fine := fine }

theorem settable_narrow {fine : Single} {text : List Char}
    (h : set (narrow 0.1) "resolution2" text = .ok (narrow fine)) :
    kernel.Settable (narrow fine) := by
  have hlow : set defaults "min_bpm" ['5', '9', '7'] = .ok { defaults with minTempo := 597 } := by
    decide +kernel
  have hhigh : set { defaults with minTempo := 597 } "max_bpm" ['6', '0', '0'] =
      .ok (narrow 0.1) := by
    decide +kernel
  have hsettable : kernel.Settable defaults := .defaults
  exact settable_of_set (settable_of_set (settable_of_set hsettable hlow) hhigh) h

theorem accepts_narrow (fine : Single) :
    Accepts (narrow fine) ⟨201, some ⟨2000, by decide, by decide⟩⟩ 2000 1 1 where
  range := (by decide : 597 < 600)
  rate_eq := rfl
  comb_le :=
    ⟨603, (by decide +kernel : combLength (narrow 0) (2000 : Nat) 201 = .ok 603), by decide⟩
  bands_pos := Nat.one_pos
  count_eq := rfl

theorem energies_narrow {fine : Single} {coarse : Pass ℚ} {peaks : List (Peak ℚ)}
    (h : Finds (narrow fine).exact 2000 [beats] coarse peaks) : coarse.energies =
      #[combScore 3 201 beats, combScore 3 200 beats, combScore 3 200 beats] := by
  have hpulses : (narrow fine).exact.pulses = 3 := rfl
  have hstart : ((narrow fine).exact.minTempo : ℚ) = 597 := rfl
  have hcoarse : (narrow fine).exact.coarse = 1 := by
    change (narrow fine).coarse.value = 1
    change defaults.coarse.value = 1
    decide +kernel
  have hsize : searchSize (597 : ℚ) ((narrow fine).exact.maxTempo : ℚ) 1 = 3 :=
    (by decide +kernel : searchSize (597 : ℚ) (600 : Nat) 1 = 3)
  have hscore (i : Nat) : gridScore 3 2000 [beats] 597 1 i =
      combScore 3 (period 2000 (tempoAt (597 : ℚ) 1 i)) beats := by
    simp [gridScore, tempoScore, groupScore]
  have hfirst : period 2000 (tempoAt (597 : ℚ) 1 0) = 201 := by decide +kernel
  have hsecond : period 2000 (tempoAt (597 : ℚ) 1 1) = 200 := by decide +kernel
  have hthird : period 2000 (tempoAt (597 : ℚ) 1 2) = 200 := by decide +kernel
  rw [h.energies_eq (hpulses ▸ by decide), hpulses, hstart, hcoarse, hsize]
  have hthree (f : Nat → ℚ) : Array.ofFn (fun i : Fin 3 => f i) = #[f 0, f 1, f 2] := rfl
  rw [hthree, hscore, hscore, hscore, hfirst, hsecond, hthird]

theorem exists_refines_narrow {fine : Single} {coarse : Pass ℚ} {peaks : List (Peak ℚ)}
    (h : Finds (narrow fine).exact 2000 [beats] coarse peaks) :
    ∃ peak, peaks = [peak] ∧ Refines (narrow fine).exact 2000 [beats] 1 peak := by
  have hstrongest : strongest coarse.energies (narrow fine).exact.peaks = [1] := by
    rw [energies_narrow h]
    exact strongest_rise combScore_beats_lt 2
  have hrefines := h.refines
  rw [hstrongest] at hrefines
  cases hrefines with
  | cons hrefine hrest =>
    cases hrest
    exact ⟨_, rfl, hrefine⟩

/-- In exact arithmetic, over all settings that can be made and all groups of signals: as long as a
fine step is no wider than two coarse ones, every pair of an output is zeros or a tempo with its
energy, which is positive and the greatest that the fine pass around a coarse maximum finds. With a
wider fine step every pair is zeros or a tempo without any energy. -/
theorem reported_energies {s : Settings Single} (hs : kernel.Settable s) (rate : ℚ)
    (group : List (Array ℚ)) {out : Array (Vector ℚ 2)} (hout : out.size = s.peaks) :
    ∃ coarse peaks, Finds s.exact rate group coarse peaks ∧
      (s.fine.value ≤ 2 * s.coarse.value → ∀ row ∈ report peaks out, row = #v[0, 0] ∨
        0 < row[1] ∧ row[1] = tempoScore s.pulses rate group row[0] ∧
          ∃ position ∈ strongest coarse.energies s.peaks,
            IsGreatest (fineEnergies s.exact rate group position) row[1]) ∧
      (2 * s.coarse.value < s.fine.value → ∀ row ∈ report peaks out, row = #v[0, 0] ∨
        ∃ position ∈ strongest coarse.energies s.peaks,
          row = #v[fineLow s.exact position, 0] ∧ 0 < row[0]) := by
  have hlegal := legal_of_settable hs
  have hpulses : 0 < s.exact.pulses := hlegal.pulses.1
  have hfine := hlegal.exact_fine_pos
  obtain ⟨coarse, peaks, hfinds⟩ := exists_finds hpulses rate group
  refine ⟨coarse, peaks, hfinds, fun hfits row hrow => ?_, fun hwide row hrow => ?_⟩
  · refine (hfinds.mem_report hout hrow).imp_right ?_
    rintro ⟨position, hposition, hpositive, p, hrefine, rfl⟩
    obtain ⟨hpos, henergy, hgreatest⟩ := hrefine.isGreatest hpulses hfine hfits hpositive
      (hfinds.sounds hpulses hposition)
    exact ⟨hpos, henergy, position, hposition, hgreatest⟩
  · refine (hfinds.mem_report hout hrow).imp_right ?_
    rintro ⟨position, hposition, hpositive, p, hrefine, rfl⟩
    obtain rfl := hrefine.eq_of_lt hpulses hfine hwide hpositive
    exact ⟨position, hposition, rfl,
      fineLow_pos hlegal.exact_coarse_pos hlegal.minTempo.1 position⟩

/-- With steps of one beat per minute the two beats are found, with their energy. -/
theorem reported_energies_beats : ∃ peaks, analyze (narrow 1).exact 2000 [beats] = .ok peaks ∧
    ∃ row ∈ report peaks (Array.replicate 3 #v[0, 0]),
      0 < row[1] ∧ row[1] = tempoScore 3 2000 [beats] row[0] := by
  have hset : set (narrow 0.1) "resolution2" ['1'] = .ok (narrow 1) := by decide +kernel
  have hout : (Array.replicate 3 (#v[0, 0] : Vector ℚ 2)).size = (narrow 1).peaks := rfl
  obtain ⟨coarse, peaks, hfinds, henergies, -⟩ :=
    reported_energies (settable_narrow hset) 2000 [beats] hout
  obtain ⟨p, rfl, hrefine⟩ := exists_refines_narrow hfinds
  have hrow : #v[p.tempo, p.energy] ∈ report [p] (Array.replicate 3 #v[0, 0]) := by
    rw [← Array.mem_toList_iff, toList_report (by simp)]
    exact List.mem_append_left _ List.mem_cons_self
  have hfits : (narrow 1).fine.value ≤ 2 * (narrow 1).coarse.value := by decide +kernel
  rcases henergies hfits _ hrow with hzero | ⟨hpos, henergy, -⟩
  · have htempo : p.tempo = 0 := congrArg (fun row : Vector ℚ 2 => row[0]) hzero
    have hlow : 0 < fineLow (narrow 1).exact 1 := by decide +kernel
    have hle := (hrefine.tempo_mem_Ico (by decide) (by decide +kernel)).1
    linarith
  · exact ⟨[p], hfinds.analyze_eq, _, hrow, hpos, henergy⟩

/-- A fine step of three coarse ones is accepted. The beats are found at 598, and what is reported
is the tempo one coarse step below it, without any energy. -/
theorem reported_without_energy : ∃ s : Settings Single, kernel.Settable s ∧
    (∀ shape known, (accept s shape ⟨201, some ⟨2000, by decide, by decide⟩⟩ known 1).answer =
      .ok (known.withSize 3, 1)) ∧
    ∃ peaks, analyze s.exact 2000 [beats] = .ok peaks ∧
      ∃ row ∈ report peaks (Array.replicate 3 #v[0, 0]),
        row = #v[597, 0] ∧ ¬(row = #v[0, 0] ∨ 0 < row[1]) := by
  have hset : set (narrow 0.1) "resolution2" ['3'] = .ok (narrow 3) := by decide +kernel
  have hpulses : 0 < (narrow 3).exact.pulses := by decide
  obtain ⟨coarse, peaks, hfinds⟩ := exists_finds hpulses 2000 [beats]
  obtain ⟨p, rfl, hrefine⟩ := exists_refines_narrow hfinds
  have hfine : 0 < (narrow 3).exact.fine := by decide +kernel
  have hwide : 2 * (narrow 3).exact.coarse < (narrow 3).exact.fine := by decide +kernel
  have hlow : fineLow (narrow 3).exact 1 = 597 := by decide +kernel
  obtain rfl := hrefine.eq_of_lt hpulses hfine hwide Nat.one_pos
  refine ⟨narrow 3, settable_narrow hset, fun shape known => ?_, _, hfinds.analyze_eq, #v[597, 0],
    ?_, rfl, by decide +kernel⟩
  · rw [(accepts_narrow 3).accept_eq shape known]
    rfl
  · rw [hlow]
    decide +kernel

end Timbre.Tempo
