import Timbre.Kernel.Tempo
import Timbre.Proofs.Number.Values
import Timbre.Proofs.Traversal

/-! # Limits of settings

A value that is read as a parameter lies within the limits of the parameter, so the limits hold of
all settings that changes of parameters lead to. The search for tempos divides by its steps and by
the tempos themselves: the limits keep them positive, also as exact numbers.
-/
namespace Timbre

/-- The settings that changes of one parameter after another lead to. -/
inductive Kernel.Settable (k : Kernel) : k.Settings → Prop
  | defaults : k.Settable k.settings
  | set {s s' : k.Settings} (name : String) (text : List Char) (h : k.Settable s)
    (hset : k.set s name text = .ok s') : k.Settable s'

theorem setting_eq_ok_iff {α β : Type} {read : Except ValueProblem α} {f : α → β} {b : β} :
    setting (read >>= fun a => pure (f a)) = .ok b ↔ ∃ a, read = .ok a ∧ f a = b := by
  rw [setting, mapError_eq_ok_iff, bind_eq_ok_iff]
  simp [pure, Except.pure]

namespace Parameter

theorem mem_of_readIntegerWithin {range : IntegerRange} {least greatest n : Int}
    {text : List Char} (h : readIntegerWithin range least greatest text = .ok n) :
    least ≤ n ∧ n ≤ greatest := by
  unfold readIntegerWithin at h
  split at h
  · cases h
  · split at h
    · rename_i hmem
      cases h
      exact hmem
    · cases h

theorem mem_of_readSize {least greatest n : Nat} {text : List Char}
    (h : readSize least greatest text = .ok n) : least ≤ n ∧ n ≤ greatest := by
  obtain ⟨m, hm, rfl⟩ := map_eq_ok_iff.1 h
  have hmem := mem_of_readIntegerWithin hm
  omega

theorem mem_of_readWord {least greatest n : Nat} {text : List Char}
    (h : readWord least greatest text = .ok n) : least ≤ n ∧ n ≤ greatest := by
  obtain ⟨m, hm, rfl⟩ := map_eq_ok_iff.1 h
  have hmem := mem_of_readIntegerWithin hm
  omega

theorem mem_of_readSingleWithin {least greatest x : Single} {text : List Char}
    (h : readSingleWithin least greatest text = .ok x) : least ≤ x ∧ x ≤ greatest := by
  unfold readSingleWithin at h
  split at h
  · cases h
  · split at h
    · rename_i hmem
      cases h
      exact hmem
    · cases h

end Parameter

namespace Tempo

/-- Every setting lies within the limits of its parameter. -/
structure Settings.Legal (s : Settings Single) : Prop where
  bands : 1 ≤ s.bands ∧ s.bands ≤ maxSize
  pulses : 1 ≤ s.pulses ∧ s.pulses ≤ maxPulses
  minTempo : 1 ≤ s.minTempo ∧ s.minTempo ≤ Tempo.maxTempo
  maxTempo : 1 ≤ s.maxTempo ∧ s.maxTempo ≤ Tempo.maxTempo
  coarse : minResolution ≤ s.coarse ∧ s.coarse ≤ (Tempo.maxTempo : Single)
  fine : minResolution ≤ s.fine ∧ s.fine ≤ (Tempo.maxTempo : Single)
  peaks : 1 ≤ s.peaks ∧ s.peaks ≤ maxPeaks

theorem legal_defaults : defaults.Legal := by
  constructor <;> decide +kernel

variable {s s' : Settings Single}

theorem Settings.Legal.set {name : String} {text : List Char} (h : s.Legal)
    (hset : Tempo.set s name text = .ok s') : s'.Legal := by
  unfold Tempo.set at hset
  split at hset
  · obtain ⟨n, hn, rfl⟩ := setting_eq_ok_iff.1 hset
    exact { h with bands := Parameter.mem_of_readSize hn }
  · obtain ⟨n, hn, rfl⟩ := setting_eq_ok_iff.1 hset
    exact { h with pulses := Parameter.mem_of_readSize hn }
  · obtain ⟨n, hn, rfl⟩ := setting_eq_ok_iff.1 hset
    exact { h with minTempo := Parameter.mem_of_readWord hn }
  · obtain ⟨n, hn, rfl⟩ := setting_eq_ok_iff.1 hset
    exact { h with maxTempo := Parameter.mem_of_readWord hn }
  · obtain ⟨x, hx, rfl⟩ := setting_eq_ok_iff.1 hset
    exact { h with coarse := Parameter.mem_of_readSingleWithin hx }
  · obtain ⟨x, hx, rfl⟩ := setting_eq_ok_iff.1 hset
    exact { h with fine := Parameter.mem_of_readSingleWithin hx }
  · obtain ⟨n, hn, rfl⟩ := setting_eq_ok_iff.1 hset
    exact { h with peaks := Parameter.mem_of_readSize hn }
  · cases hset

theorem settable_of_set {name : String} {text : List Char} (h : kernel.Settable s)
    (hset : Tempo.set s name text = .ok s') : kernel.Settable s' :=
  .set name text h hset

theorem legal_of_settable {s : kernel.Settings} (h : kernel.Settable s) : Settings.Legal s := by
  induction h with
  | defaults => exact legal_defaults
  | set name text _ hset ih => exact ih.set hset

/-- The settings with their steps as the numbers that they stand for. -/
def Settings.exact (s : Settings Single) : Settings ℚ where
  bands := s.bands
  pulses := s.pulses
  minTempo := s.minTempo
  maxTempo := s.maxTempo
  coarse := s.coarse.value
  fine := s.fine.value
  peaks := s.peaks

theorem value_pos_of_resolution {x : Single}
    (h : minResolution ≤ x ∧ x ≤ (Tempo.maxTempo : Single)) : 0 < x.value := by
  have hleast : minResolution.isFinite := by decide +kernel
  have hgreatest : (Tempo.maxTempo : Single).isFinite := by decide +kernel
  have hpos : 0 < minResolution.value := by decide +kernel
  have hx : x.isFinite := Single.isFinite_of_between hleast hgreatest h.1 h.2
  exact hpos.trans_le ((Single.le_iff_value_le hleast hx).1 h.1)

theorem Settings.Legal.exact_coarse_pos (h : s.Legal) : 0 < s.exact.coarse :=
  value_pos_of_resolution h.coarse

theorem Settings.Legal.exact_fine_pos (h : s.Legal) : 0 < s.exact.fine :=
  value_pos_of_resolution h.fine

end Tempo

end Timbre
