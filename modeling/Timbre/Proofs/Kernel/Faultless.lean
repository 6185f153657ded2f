import Timbre.Proofs.Kernel.Setters
import Timbre.Proofs.Kernel.Spectra

/-! # Shapes without faults

Accepting a format takes differences, quotients, remainders and shifts. Some of these steps are kept
from a fault by a size that is refused before them, the others by limits of the parameters. The
defaults lie within the limits, and no call that sets a parameter leaves them, whether or not it is
accepted. Main statement: `Kernel.accept_without_faults`.
-/
namespace Timbre

/-- No fault, whatever else the answer may be. -/
def Faultless {α : Type} (answer : Except Error α) : Prop :=
  ∀ name cause, answer ≠ .error (.fault name cause)

namespace Faultless

variable {α β : Type} {k : Kind}

theorem ok (a : α) : Faultless (.ok a) := nofun

theorem refuse (f : Format k) (refusal : Refusal) :
    Faultless (.error (f.refuse refusal) : Except Error α) := nofun

theorem samplingRate (f : Format k) : Faultless f.samplingRate := by
  unfold Format.samplingRate
  split <;> nofun

theorem error {x : Except Error α} {e : Error} (hx : Faultless x) (he : x = .error e) :
    Faultless (.error e : Except Error β) := by
  rintro name cause h
  cases h
  exact hx name cause he

theorem bind {x : Except Error α} {f : α → Except Error β} (hx : Faultless x)
    (hf : ∀ a, Faultless (f a)) : Faultless (x >>= f) := by
  cases x with
  | error e => exact hx.error rfl
  | ok a => exact hf a

end Faultless

namespace Kernel

/-- Limits of the settings that the defaults lie within and that every change of a parameter keeps.
Within them no format leads to a fault. -/
structure GuardedBy (k : Kernel) (limits : k.Settings → Prop) : Prop where
  defaults : limits k.settings
  set : ∀ s s' name text, limits s → k.set s name text = .ok s' → limits s'
  accept : ∀ s, limits s → ∀ shape input known count,
    Faultless (k.accept s shape input known count).answer

/-- The settings that calls leave, one after another; a call that fails leaves them as they are. -/
def afterCalls (k : Kernel) (calls : List (String × String)) : k.Settings :=
  calls.foldl k.adjusted k.settings

variable {k : Kernel} {limits : k.Settings → Prop} {s : k.Settings}

theorem Settable.adjusted (h : k.Settable s) (e : String × String) :
    k.Settable (k.adjusted s e) := by
  cases hset : k.set s e.1 e.2.toList with
  | error problem => exact (adjusted_of_error hset).symm ▸ h
  | ok s' => exact (adjusted_of_ok hset).symm ▸ h.set e.1 e.2.toList hset

theorem Settable.foldl_adjusted (h : k.Settable s) (calls : List (String × String)) :
    k.Settable (calls.foldl k.adjusted s) := by
  induction calls generalizing s with
  | nil => exact h
  | cons e calls ih => exact ih (h.adjusted e)

theorem settable_afterCalls (k : Kernel) (calls : List (String × String)) :
    k.Settable (k.afterCalls calls) := Settable.defaults.foldl_adjusted calls

namespace GuardedBy

theorem of_settable (h : k.GuardedBy limits) (hs : k.Settable s) : limits s := by
  induction hs with
  | defaults => exact h.defaults
  | set name text _ hset ih => exact h.set _ _ name text ih hset

theorem afterCalls (h : k.GuardedBy limits) (calls : List (String × String)) :
    limits (k.afterCalls calls) := h.of_settable (k.settable_afterCalls calls)

theorem of_accept (h : ∀ s shape input known count,
    Faultless (k.accept s shape input known count).answer) : k.GuardedBy fun _ => True :=
  ⟨trivial, fun _ _ _ _ _ _ => trivial, fun s _ => h s⟩

theorem of_accepts (h : ∀ s shape input known count,
    ∃ r, (k.accept s shape input known count).answer = .ok r) : k.GuardedBy fun _ => True := by
  refine of_accept fun s shape input known count => ?_
  obtain ⟨r, hr⟩ := h s shape input known count
  exact hr ▸ .ok r

end GuardedBy

end Kernel

namespace Framing

/-- No frame is empty, and the next one starts later. -/
structure Settings.Legal (s : Settings) : Prop where
  length : 1 ≤ s.length
  step : 1 ≤ s.step

theorem Settings.Legal.set {s s' : Settings} {name : String} {text : List Char} (h : s.Legal)
    (hset : Framing.set s name text = .ok s') : s'.Legal := by
  unfold Framing.set at hset
  split at hset
  · obtain ⟨n, hn, rfl⟩ := setting_eq_ok_iff.1 hset
    exact { h with length := (Parameter.mem_of_readSize hn).1 }
  · obtain ⟨n, hn, rfl⟩ := setting_eq_ok_iff.1 hset
    exact { h with step := (Parameter.mem_of_readSize hn).1 }
  · obtain ⟨w, -, rfl⟩ := setting_eq_ok_iff.1 hset
    exact { h with }
  · cases hset

theorem frameCount_eq_of_le {s : Settings} {size : Nat} (h : s.Legal) (hsize : s.length ≤ size) :
    frameCount s size = .ok ((size - s.length) / s.step + 1) := by
  have hdiv : Checked.div (size - s.length) s.step = .ok ((size - s.length) / s.step) :=
    Checked.div_eq_ok_iff.2 ⟨Nat.ne_of_gt h.step, rfl⟩
  rw [frameCount, Checked.sub_eq_ok hsize]
  exact bind_pure_eq_ok hdiv (· + 1)

theorem accept_refuses {s : Settings} {input : Format Signal} (h : input.size < s.length)
    (shape : Nat) (known : Format Signal) (count : Nat) :
    (kernel.accept s shape input known count).answer =
      .error (input.refuse (.windowTooLong s.length)) := by
  dsimp only [kernel]
  rw [if_pos h]

theorem faultless_accept {s : Settings} (hs : s.Legal) (shape : Nat) (input known : Format Signal)
    (count : Nat) : Faultless (kernel.accept s shape input known count).answer := by
  obtain h | h := Nat.lt_or_ge input.size s.length
  · rw [accept_refuses h]
    exact .refuse _ _
  · dsimp only [kernel]
    rw [if_neg (Nat.not_lt.2 h), frameCount_eq_of_le hs h]
    exact .ok _

theorem guardedBy_kernel : kernel.GuardedBy Settings.Legal where
  defaults := ⟨by decide, by decide⟩
  set _ _ _ _ h hset := h.set hset
  accept _ hs := faultless_accept hs

end Framing

namespace Spectrum

theorem forward_accept_faultless (settings shape : Unit) (input known : Format Signal)
    (count : Nat) : Faultless (forwardKernel.accept settings shape input known count).answer := by
  dsimp only [forwardKernel, requireEven]
  by_cases h : input.size % 2 ≠ 0 ∨ input.size < 2
  · rw [if_pos h]
    exact .refuse _ _
  · rw [if_neg h]
    exact .ok _

theorem inverse_accept_refuses {input : Format Signal} (h : input.size % 2 ≠ 0 ∨ input.size < 4)
    (settings shape : Unit) (known : Format Signal) (count : Nat) :
    (inverseKernel.accept settings shape input known count).answer =
      .error (input.refuse (.notEven 4)) := by
  dsimp only [inverseKernel, requireEven]
  rw [if_pos h]

theorem inverse_accept_faultless (settings shape : Unit) (input known : Format Signal)
    (count : Nat) : Faultless (inverseKernel.accept settings shape input known count).answer := by
  by_cases h : input.size % 2 ≠ 0 ∨ input.size < 4
  · rw [inverse_accept_refuses h]
    exact .refuse _ _
  · dsimp only [inverseKernel, requireEven]
    rw [if_neg h, Checked.sub_eq_ok (by omega)]
    exact .ok _

end Spectrum

namespace Autocorrelation

theorem accept_refuses {input : Format Signal} (h : input.size = 0) (settings shape : Unit)
    (known : Format Signal) (count : Nat) :
    (kernel.accept settings shape input known count).answer =
      .error (input.refuse .emptySignal) := by
  dsimp only [kernel]
  rw [if_pos h]

theorem faultless_accept (settings shape : Unit) (input known : Format Signal) (count : Nat) :
    Faultless (kernel.accept settings shape input known count).answer := by
  by_cases h : input.size = 0
  · rw [accept_refuses h]
    exact .refuse _ _
  · dsimp only [kernel]
    rw [if_neg h, Checked.sub_eq_ok (by omega)]
    exact .ok _

end Autocorrelation

namespace Difference

structure Settings.Legal (s : Settings) : Prop where
  level : s.level ≤ maxLevel

theorem Settings.Legal.set {s s' : Settings} {name : String} {text : List Char} (h : s.Legal)
    (hset : Difference.set s name text = .ok s') : s'.Legal := by
  unfold Difference.set at hset
  split at hset
  · obtain ⟨b, -, rfl⟩ := setting_eq_ok_iff.1 hset
    exact { h with }
  · obtain ⟨n, hn, rfl⟩ := setting_eq_ok_iff.1 hset
    exact ⟨(Parameter.mem_of_readSize hn).2⟩
  · cases hset

theorem guardedBy_kernel : kernel.GuardedBy Settings.Legal where
  defaults := ⟨by decide⟩
  set _ _ _ _ h hset := h.set hset
  accept _ _ _ _ _ _ := .ok _

end Difference

namespace FilterBank

theorem faultless_accept (s : Settings) (input : Format Signal) (count : Nat) :
    Faultless (accept s input count) := by
  refine .bind (.samplingRate input) fun hz => ?_
  dsimp only
  split
  · exact .refuse _ _
  · split
    · exact .refuse _ _
    · exact .ok _

end FilterBank

namespace Subbands

variable {size offset : Nat} {depths : List Nat} {e : TilingError}

/-- There is a leaf, and none lies too deep. -/
structure Legal (depths : List Nat) : Prop where
  ne_nil : depths ≠ []
  depth : ∀ d ∈ depths, d ≤ maxDepth

theorem legal_of_readDepths {text : List Char} (h : readDepths text = .ok depths) :
    Legal depths := by
  obtain ⟨read, -, h⟩ := bind_eq_ok_iff.1 h
  split at h
  · cases h
  · rename_i hempty
    split at h
    · cases h
    · rename_i hfind
      cases h
      refine ⟨by simpa using hempty, fun d hd => ?_⟩
      simpa using List.find?_eq_none.1 hfind d hd

theorem legal_of_set {old : List Nat} {name : String} {text : List Char}
    (h : set old name text = .ok depths) : Legal depths := by
  unfold set at h
  split at h
  · exact legal_of_readDepths (mapError_eq_ok_iff.1 h)
  · cases h

/-- What goes wrong with depths that fit into a word is a matter of the size. -/
def TilingError.OfSize (e : TilingError) : Prop := ∀ cause, e ≠ .fault cause

theorem TilingError.OfSize.faultless {α : Type} (h : e.OfSize) (input : Format Signal) :
    Faultless (.error (refusal input e) : Except Error α) := by
  cases e with
  | notDivisible depth => exact .refuse _ _
  | coverage covered size => exact .refuse _ _
  | fault cause => exact absurd rfl (h cause)

theorem ofSize_of_width {depth : Nat} (hdepth : depth < 64) (h : width size depth = .error e) :
    e.OfSize := by
  obtain h | ⟨w, -, h⟩ := bind_eq_error_iff.1 h
  · rw [Checked.shiftRight_eq_ok hdepth] at h
    cases h
  · split at h
    · cases h
      nofun
    · rw [Checked.shiftLeft_eq_ok hdepth] at h
      obtain h | ⟨back, -, h⟩ := bind_eq_error_iff.1 h
      · cases h
      · split at h
        · cases h
        · cases h
          nofun

theorem ofSize_of_bandsFrom (hdepths : ∀ d ∈ depths, d < 64)
    (h : bandsFrom size offset depths = .error e) : e.OfSize := by
  induction depths generalizing offset with
  | nil => cases h
  | cons depth depths ih =>
    obtain ⟨hdepth, hdepths⟩ := List.forall_mem_cons.1 hdepths
    obtain h | ⟨w, -, h⟩ := bind_eq_error_iff.1 h
    · exact ofSize_of_width hdepth h
    · obtain h | ⟨r, -, h⟩ := bind_eq_error_iff.1 h
      · exact ih hdepths h
      · cases h

theorem ofSize_of_tile (hdepths : ∀ d ∈ depths, d < 64) (h : tile size depths = .error e) :
    e.OfSize := by
  obtain h | ⟨⟨bands, last⟩, -, h⟩ := bind_eq_error_iff.1 h
  · exact ofSize_of_bandsFrom hdepths h
  · dsimp only at h
    split at h
    · cases h
    · cases h
      nofun

theorem faultless_accept (h : Legal depths) (bands : List Band) (input : Format Signal)
    (count : Nat) : Faultless (accept depths bands input count).answer := by
  have hword : ∀ d ∈ depths, d < 64 :=
    fun d hd => Nat.lt_of_le_of_lt (h.depth d hd) (by decide)
  unfold accept
  split
  · rename_i e htile
    exact (ofSize_of_tile hword htile).faultless input
  · exact .ok _

theorem legal_defaults : Legal [3, 3, 2, 2, 3, 3] := ⟨by decide, by decide⟩

theorem guardedBy_kernel : kernel.GuardedBy Legal where
  defaults := legal_defaults
  set old _ _ _ _ hset := @legal_of_set _ old _ _ hset
  accept _ hlegal bands input _ count := faultless_accept hlegal bands input count

end Subbands

namespace Tempo

theorem combLength_eq {s : Settings Single} (h : 1 ≤ s.pulses) (rate : Single) (size : Nat) :
    combLength s rate size = .ok ((s.pulses - 1) * longestPeriod s rate + size) := by
  rw [combLength, Checked.sub_eq_ok h]
  rfl

theorem faultless_accept {s : Settings Single} (hs : s.Legal) (shape : Single)
    (input : Format Signal) (known : Format (.array (.tuple 2))) (count : Nat) :
    Faultless (accept s shape input known count).answer := by
  have hbands : s.bands ≠ 0 := Nat.ne_of_gt hs.bands.1
  unfold accept
  split
  · exact .refuse _ _
  · rw [Checked.mod_eq_ok_iff.2 ⟨hbands, rfl⟩]
    split
    · rename_i h
      cases h
    · exact .refuse _ _
    · split
      · rename_i e he
        exact (Faultless.samplingRate input).error he
      · rename_i hz _
        rw [combLength_eq hs.pulses.1, Checked.div_eq_ok_iff.2 ⟨hbands, rfl⟩]
        refine .bind (.ok _) fun length => ?_
        split
        · exact .bind (.ok _) fun groups => .ok _
        · exact .refuse _ _

theorem guardedBy_kernel : kernel.GuardedBy Settings.Legal where
  defaults := legal_defaults
  set _ _ _ _ h hset := h.set hset
  accept _ hs := faultless_accept hs

end Tempo

namespace Kernel

theorem exists_guardedBy_of_mem_builtin {k : Kernel} (h : k ∈ builtinKernels) :
    ∃ limits, k.GuardedBy limits := by
  simp only [builtinKernels, List.mem_cons, List.not_mem_nil, or_false] at h
  rcases h with rfl | rfl | rfl | rfl | rfl | rfl | rfl | rfl | rfl | rfl | rfl | rfl | rfl | rfl
  · exact ⟨_, .of_accepts fun _ _ _ _ _ => ⟨_, rfl⟩⟩
  · exact ⟨_, Framing.guardedBy_kernel⟩
  · exact ⟨_, .of_accepts fun _ _ _ _ _ => ⟨_, rfl⟩⟩
  · exact ⟨_, .of_accept Spectrum.forward_accept_faultless⟩
  · exact ⟨_, .of_accept Spectrum.inverse_accept_faultless⟩
  · exact ⟨_, .of_accepts fun _ _ _ _ _ => ⟨_, rfl⟩⟩
  · exact ⟨_, .of_accepts fun _ _ _ _ _ => ⟨_, rfl⟩⟩
  · exact ⟨_, .of_accepts fun _ _ _ _ _ => ⟨_, rfl⟩⟩
  · exact ⟨_, .of_accepts fun _ _ _ _ _ => ⟨_, rfl⟩⟩
  · exact ⟨_, Difference.guardedBy_kernel⟩
  · exact ⟨_, .of_accept fun s _ input _ count => FilterBank.faultless_accept s input count⟩
  · exact ⟨_, Subbands.guardedBy_kernel⟩
  · exact ⟨_, .of_accept Autocorrelation.faultless_accept⟩
  · exact ⟨_, Tempo.guardedBy_kernel⟩

/-- Whatever was called before, with whatever names and texts, no kernel of the library faults on a
format, of whatever size, or on a number of elements. Frames and steps stay positive, no level or
depth comes near the width of a word, there always is a leaf, a band and a pulse; and the sizes from
which too much would be taken away are refused. -/
theorem accept_without_faults :
    (∀ k ∈ builtinKernels, ∀ calls shape input known count,
      Faultless (k.accept (k.afterCalls calls) shape input known count).answer) ∧
    (∀ calls,
      (let s : Framing.Settings := Framing.kernel.afterCalls calls
       1 ≤ s.length ∧ 1 ≤ s.step) ∧
      (let s : Difference.Settings := Difference.kernel.afterCalls calls
       s.level ≤ 24) ∧
      (let depths : List Nat := Subbands.kernel.afterCalls calls
       depths ≠ [] ∧ ∀ d ∈ depths, d ≤ 24) ∧
      (let s : Tempo.Settings Single := Tempo.kernel.afterCalls calls
       1 ≤ s.bands ∧ 1 ≤ s.pulses ∧ s.pulses ≤ 64)) ∧
    ∀ (input known : Format Signal) (count : Nat),
      (∀ (s : Framing.Settings) shape, input.size < s.length →
        (Framing.kernel.accept s shape input known count).answer =
          .error (input.refuse (.windowTooLong s.length))) ∧
      (input.size = 0 → (Autocorrelation.kernel.accept () () input known count).answer =
        .error (input.refuse .emptySignal)) ∧
      (input.size % 2 ≠ 0 ∨ input.size < 4 →
        (Spectrum.inverseKernel.accept () () input known count).answer =
          .error (input.refuse (.notEven 4))) := by
  refine ⟨fun k hk calls shape input known count => ?_, fun calls => ?_,
    fun input known count => ?_⟩
  · obtain ⟨limits, h⟩ := exists_guardedBy_of_mem_builtin hk
    exact h.accept _ (h.afterCalls calls) shape input known count
  · have hframes := Framing.guardedBy_kernel.afterCalls calls
    have hdifferences := Difference.guardedBy_kernel.afterCalls calls
    have hleaves := Subbands.guardedBy_kernel.afterCalls calls
    have htempos := Tempo.guardedBy_kernel.afterCalls calls
    exact ⟨⟨hframes.length, hframes.step⟩, hdifferences.level, ⟨hleaves.ne_nil, hleaves.depth⟩,
      htempos.bands.1, htempos.pulses⟩
  · exact ⟨fun s shape h => Framing.accept_refuses h shape known count,
      fun h => Autocorrelation.accept_refuses h () () known count,
      fun h => Spectrum.inverse_accept_refuses h () () known count⟩

/-- Beyond the limits there are faults. -/
example : Framing.frameCount { step := 0 } 512 = .error .divisionByZero ∧
    Subbands.tile 512 [64] = .error (.fault .wideShift) := ⟨rfl, rfl⟩

def windowCalls : List (String × String) := [("step", "0"), ("length", " 4"), ("hop", "1")]

theorem accept_without_faults_window : Framing.kernel ∈ builtinKernels ∧
    Framing.kernel.afterCalls windowCalls = ({ length := 4 } : Framing.Settings) ∧
    ∀ shape input known count, Faultless (Framing.kernel.accept
      (Framing.kernel.afterCalls windowCalls) shape input known count).answer :=
  have hk : Framing.kernel ∈ builtinKernels := by simp [builtinKernels]
  ⟨hk, rfl, accept_without_faults.1 Framing.kernel hk windowCalls⟩

end Kernel

end Timbre
