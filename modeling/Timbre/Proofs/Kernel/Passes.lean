import Timbre.Proofs.Kernel.Batches
import Timbre.Proofs.Kernel.Combs
import Timbre.Proofs.Number.Exact

/-! # Passes over tempos

A pass scores one tempo after another, from the lowest up, and keeps the first of the strongest. In
exact arithmetic the score of a tempo depends on nothing but the group and the tempo, and it is
positive exactly if some signal is not silent; so a pass over such a group finds a tempo whenever
it scores any. Main statements: `exists_search_exact`, `Leads.isGreatest` and
`Leads.tempo_mem_Ico`.
-/
namespace Timbre.Tempo

section Scores

variable {K : Type} [Semiring K] {pulses : Nat}

def groupScore (pulses period : Nat) (group : List (Array K)) : K :=
  (group.map (combScore pulses period)).sum

theorem exists_foldlM_add {ι β : Type} {f : K × β → ι → Except Fault (K × β)} {worth : ι → K}
    (h : ∀ acc x, ∃ b, f acc x = .ok (acc.1 + worth x, b)) (xs : List ι) (acc : K × β) :
    ∃ b, xs.foldlM f acc = .ok (acc.1 + (xs.map worth).sum, b) := by
  induction xs generalizing acc with
  | nil => exact ⟨acc.2, by simp [pure, Except.pure]⟩
  | cons x xs ih =>
    obtain ⟨b, hb⟩ := h acc x
    obtain ⟨b', hb'⟩ := ih (acc.1 + worth x, b)
    refine ⟨b', ?_⟩
    rw [List.foldlM_cons, hb, List.map_cons, List.sum_cons, ← add_assoc]
    exact hb'

theorem exists_groupEnergy_exact (hpulses : 0 < pulses) (period : Nat) (group : List (Array K))
    (buffer : Array K) :
    ∃ buffer', groupEnergy pulses period group buffer =
      .ok (groupScore pulses period group, buffer') := by
  have hsum : groupScore pulses period group =
      (0, buffer).1 + (group.map (combScore pulses period)).sum := (zero_add _).symm
  rw [hsum, groupEnergy]
  refine exists_foldlM_add (fun acc signal => ?_) group (0, buffer)
  rw [combEnergy_eq_ok hpulses period signal acc.2]
  exact ⟨_, rfl⟩

/-- A group in which some sample is not zero. -/
def Sounds (group : List (Array K)) : Prop := ∃ signal ∈ group, ∃ x ∈ signal, x ≠ 0

end Scores

section Positive

variable {K : Type} [Field K] [LinearOrder K] [IsStrictOrderedRing K] {pulses period : Nat}

theorem groupScore_nonneg (pulses period : Nat) (group : List (Array K)) :
    0 ≤ groupScore pulses period group := by
  refine List.sum_nonneg fun e he => ?_
  obtain ⟨signal, -, rfl⟩ := List.mem_map.1 he
  exact combScore_nonneg pulses period signal

theorem groupScore_pos_iff (hpulses : 1 ≤ pulses) (hperiod : 1 ≤ period)
    (group : List (Array K)) : 0 < groupScore pulses period group ↔ Sounds group := by
  induction group with
  | nil => simp [groupScore, Sounds]
  | cons signal group ih =>
    have hnonneg := combScore_nonneg pulses period signal
    have hnonneg' := groupScore_nonneg pulses period group
    have hsplit : Sounds (signal :: group) ↔ (∃ x ∈ signal, x ≠ 0) ∨ Sounds group := by
      simp [Sounds]
    have hsum : groupScore pulses period (signal :: group) =
        combScore pulses period signal + groupScore pulses period group := by
      simp [groupScore]
    rw [hsplit, hsum, ← combScore_pos_iff hpulses hperiod, ← ih]
    constructor
    · intro hpos
      by_contra hnone
      push Not at hnone
      linarith
    · rintro (hpos | hpos) <;> linarith

end Positive

section Leading

variable {K : Type} [Zero K] [LinearOrder K] {score tempo : Nat → K} {low : K} {n : Nat}
  {best : Peak K}

/-- The first of the strongest of `n` tempos; none has any energy unless one is found. -/
inductive Leads (score tempo : Nat → K) (low : K) (n : Nat) : Peak K → Prop
  | silent (h : ∀ i < n, score i ≤ 0) : Leads score tempo low n ⟨low, 0⟩
  | found (i : Nat) (hi : i < n) (hpos : 0 < score i) (hgreatest : ∀ j < n, score j ≤ score i)
    (hfirst : ∀ j < i, score j < score i) : Leads score tempo low n ⟨tempo i, score i⟩

theorem Leads.push (h : Leads score tempo low n best) : Leads score tempo low (n + 1)
    (if best.energy < score n then ⟨tempo n, score n⟩ else best) := by
  cases h with
  | silent h =>
    split
    · rename_i hpos
      have hbelow (j : Nat) (hj : j < n) : score j < score n := (h j hj).trans_lt hpos
      exact .found n n.lt_succ_self hpos
        (Nat.forall_lt_succ_right.2 ⟨fun j hj => (hbelow j hj).le, le_rfl⟩) hbelow
    · rename_i hle
      exact .silent (Nat.forall_lt_succ_right.2 ⟨h, not_lt.1 hle⟩)
  | found i hi hpos hgreatest hfirst =>
    split
    · rename_i hlt
      have hbelow (j : Nat) (hj : j < n) : score j < score n := (hgreatest j hj).trans_lt hlt
      exact .found n n.lt_succ_self (hpos.trans hlt)
        (Nat.forall_lt_succ_right.2 ⟨fun j hj => (hbelow j hj).le, le_rfl⟩) hbelow
    · rename_i hle
      exact .found i (Nat.lt_succ_of_lt hi) hpos
        (Nat.forall_lt_succ_right.2 ⟨hgreatest, not_lt.1 hle⟩) hfirst

/-- Where every tempo has energy and there is one, the strongest is found. -/
theorem Leads.isGreatest (h : Leads score tempo low n best) (hn : 0 < n)
    (hpos : ∀ i < n, 0 < score i) :
    0 < best.energy ∧ ∃ i < n, best = ⟨tempo i, score i⟩ ∧
      IsGreatest (score '' Set.Iio n) best.energy := by
  cases h with
  | silent h => exact absurd (hpos 0 hn) (h 0 hn).not_gt
  | found i hi hpos hgreatest _ =>
    refine ⟨hpos, i, hi, rfl, ⟨i, hi, rfl⟩, ?_⟩
    rintro _ ⟨j, hj, rfl⟩
    exact hgreatest j hj

end Leading

section Pass

variable {K : Type} [Field K] [LinearOrder K] [FloorRing K] {pulses : Nat} {rate : K}
  {group : List (Array K)}

def tempoScore (pulses : Nat) (rate : K) (group : List (Array K)) (tempo : K) : K :=
  groupScore pulses (period rate tempo) group

def gridScore (pulses : Nat) (rate : K) (group : List (Array K)) (low step : K) (i : Nat) : K :=
  tempoScore pulses rate group (tempoAt low step i)

/-- The energies of a pass are those of its grid, and its best is the first strongest of them. -/
theorem exists_search_exact (hpulses : 0 < pulses) (rate : K) (group : List (Array K))
    (low high step : K) (buffer : Array K) :
    ∃ pass, search pulses rate group low high step buffer = .ok pass ∧
      pass.energies = Array.ofFn (fun i : Fin (searchSize low high step) =>
        gridScore pulses rate group low step i) ∧
      Leads (gridScore pulses rate group low step) (tempoAt low step) low
        (searchSize low high step) pass.best := by
  refine exists_foldlM_range_eq_ok (fun n (pass : Pass K) =>
    pass.energies = Array.ofFn (fun i : Fin n => gridScore pulses rate group low step i) ∧
      Leads (gridScore pulses rate group low step) (tempoAt low step) low n pass.best) ?_ ?_
  · exact ⟨by simp, .silent fun i hi => absurd hi (Nat.not_lt_zero i)⟩
  · rintro n - pass ⟨henergies, hleads⟩
    obtain ⟨buffer', hgroup⟩ := exists_groupEnergy_exact hpulses
      (period rate (tempoAt low step n)) group pass.buffer
    refine ⟨_, bind_pure_eq_ok hgroup _, ?_, hleads.push⟩
    rw [Array.ofFn_succ, henergies]
    rfl

variable [IsStrictOrderedRing K]

theorem gridScore_pos_iff (hpulses : 1 ≤ pulses) (rate : K) (group : List (Array K))
    (low step : K) (i : Nat) : 0 < gridScore pulses rate group low step i ↔ Sounds group :=
  groupScore_pos_iff hpulses (le_max_right _ _) group

end Pass

section Grid

variable {K : Type} [Field K] [LinearOrder K] [IsStrictOrderedRing K] [FloorRing K]
  {low high step : K} {score : Nat → K} {best : Peak K} {i : Nat}

theorem searchSize_pos_iff (hstep : 0 < step) :
    0 < searchSize low high step ↔ step ≤ high - low := by
  rw [searchSize, toNat_floor, Nat.floor_pos, one_le_div hstep]

theorem tempoAt_mem_Ico (hlt : low < high) (hi : i < searchSize low high step) :
    tempoAt low step i ∈ Set.Ico low high := by
  rw [searchSize, toNat_floor, ← Nat.succ_le_iff, Nat.le_floor_iff' (Nat.succ_ne_zero i)] at hi
  push_cast at hi
  have hwidth : 0 < high - low := sub_pos.2 hlt
  have hplace : (0 : K) ≤ i := Nat.cast_nonneg i
  have hstep : 0 < step := (div_pos_iff_of_pos_left hwidth).1 (by linarith)
  have hroom : (i + 1) * step ≤ high - low := (le_div_iff₀ hstep).1 hi
  unfold tempoAt
  constructor
  · have hforward : 0 ≤ step * i := mul_nonneg hstep.le hplace
    linarith
  · linarith

theorem Leads.tempo_mem_Ico (hlt : low < high)
    (h : Leads score (tempoAt low step) low (searchSize low high step) best) :
    best.tempo ∈ Set.Ico low high := by
  cases h with
  | silent _ => exact ⟨le_rfl, hlt⟩
  | found i hi _ _ _ => exact tempoAt_mem_Ico hlt hi

end Grid

end Timbre.Tempo
