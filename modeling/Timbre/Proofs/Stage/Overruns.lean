import Timbre.Proofs.Kernel.Overwriting
import Timbre.Proofs.Stage.Rewiring

/-! # Filters that end behind the last point

A filter ends no later than at the last point of its spectra, and the position of this point is
taken in single precision. Up to `2 ^ 24` points it is exact; beyond, it may be rounded up, and then
a filter can end behind the last point. A bank with such a filter fails on every spectrum, and a
bank without one on none.
-/
namespace Timbre

namespace FilterBank

/-- A filter of the bank ends behind the last point of the spectra. -/
def Overruns (size : Nat) (bank : Array (Filter Single)) : Prop := ∃ f ∈ bank, size ≤ f.stop

theorem stop_lt_of_not_overruns {size : Nat} {bank : Array (Filter Single)}
    (h : ¬Overruns size bank) : ∀ f ∈ bank, f.stop < size := by
  intro f hf
  by_contra hlt
  exact h ⟨f, hf, Nat.not_lt.1 hlt⟩

theorem Filter.pass_eq_error_iff {xs : Array Single} {f : Filter Single} {e : Fault} :
    Filter.pass xs f = .error e ↔ Checked.slice xs f.start (f.stop + 1) = .error e := by
  unfold Filter.pass
  cases Checked.slice xs f.start (f.stop + 1) <;> simp [Except.map]

theorem pass_eq_error {bank : Array (Filter Single)} {xs out : Array Single}
    (hout : out.size = bank.size) (h : Overruns xs.size bank) :
    pass bank xs out = .error .outOfRange := by
  obtain ⟨f, hf, hstop⟩ := h
  have hfails : Filter.pass xs f = .error .outOfRange :=
    Filter.pass_eq_error_iff.2 (Checked.slice_eq_error_iff.2 ⟨by omega, rfl⟩)
  have hall : bank.toList.mapM (Filter.pass xs) = .error .outOfRange := by
    refine mapM_eq_error ?_ ⟨f, Array.mem_toList_iff.2 hf, hfails⟩
    intro g _ e hg
    exact (Checked.slice_eq_error_iff.1 (Filter.pass_eq_error_iff.1 hg)).2
  unfold pass
  rw [hout, Array.extract_size, Array.mapM_eq_mapM_toList, hall]
  rfl

end FilterBank

namespace Stage

/-- The stage is a filter bank, and a filter of it ends behind the last point of its spectra. -/
inductive Overruns : {k : Kernel} → Stage k → Prop
  | intro {s : Stage FilterBank.kernel}
      (h : FilterBank.Overruns (AnyFormat.points ⟨_, s.input⟩) s.plan) : Overruns s

variable {s₀ s s' : Stage FilterBank.kernel} {f : Format Signal} {count n workers : Nat}
  {warnings : List Warning}

theorem filterBank_of_prepare (haccept : s₀.accept ⟨Signal, f⟩ count = ⟨s, .ok n, warnings⟩)
    (hprepare : s.prepare workers = .ok s') : f.size ≠ 0 ∧
      ∃ (settings : FilterBank.Settings) (bank : Array (FilterBank.Filter Single)),
        FilterBank.prepare settings f = .ok bank ∧
          s' = ⟨settings, (), bank, f, f.withSize settings.number, count, true⟩ := by
  obtain ⟨input, known, output, hinput, -, hanswer, rfl⟩ := accept_eq_ok haccept
  obtain ⟨bank, hbank, rfl⟩ := prepare_eq_ok hprepare
  obtain rfl : f = input := Except.ok.inj ((takeInput_mk s₀ f).symm.trans hinput)
  obtain ⟨hpos, rfl, rfl⟩ := FilterBank.accept_eq_ok hanswer
  exact ⟨hpos, _, bank, hbank, rfl⟩

theorem not_overruns_of_bank (haccept : s₀.accept ⟨Signal, f⟩ count = ⟨s, .ok n, warnings⟩)
    (hprepare : s.prepare workers = .ok s') (hsize : FilterBank.Countable f.size) :
    ¬s'.Overruns := by
  obtain ⟨hpos, settings, bank, hbank, rfl⟩ := filterBank_of_prepare haccept hprepare
  rintro ⟨⟨g, hg, hstop⟩⟩
  have hlt := FilterBank.stop_lt_of_prepare (Nat.pos_of_ne_zero hpos) hsize hbank g hg
  exact absurd hstop (Nat.not_le.2 hlt)

theorem works_of_not_overruns (haccept : s₀.accept ⟨Signal, f⟩ count = ⟨s, .ok n, warnings⟩)
    (hprepare : s.prepare workers = .ok s') (h : count = 0 ∨ ¬s'.Overruns) : s'.Works count := by
  obtain ⟨-, settings, bank, hbank, rfl⟩ := filterBank_of_prepare haccept hprepare
  rcases h with rfl | hover
  · exact works_of_no_elements rfl rfl
  · exact FilterBank.works_of_stop_lt settings f (FilterBank.start_le_of_prepare hbank)
      (FilterBank.stop_lt_of_not_overruns fun h => hover (.intro h)) count

theorem work_of_overruns (haccept : s₀.accept ⟨Signal, f⟩ count = ⟨s, .ok n, warnings⟩)
    (hprepare : s.prepare workers = .ok s') (hcount : count ≠ 0) (h : s'.Overruns)
    {inputs outputs : Array (Array Single)} (hinputs : f.FitsAll count inputs)
    (houtputs : Format.FitsAll s'.output s'.count outputs) :
    s'.work inputs outputs = .error (.fault FilterBank.kernel.name .outOfRange) := by
  obtain ⟨-, settings, bank, hbank, rfl⟩ := filterBank_of_prepare haccept hprepare
  obtain ⟨hover⟩ := h
  refine work_eq_fault rfl (hinputs.1.trans houtputs.1.symm) (hinputs.1 ▸ hcount) ?_
  intro x hx out hout
  have hx : x.size = f.size := hinputs.2 x hx
  have hout : out.size = bank.size :=
    Eq.trans (houtputs.2 out hout) (FilterBank.size_of_prepare hbank).symm
  have hpass : FilterBank.pass bank x out = .error .outOfRange :=
    FilterBank.pass_eq_error hout (hx ▸ hover)
  exact bind_eq_error_iff.2 (.inl hpass)

end Stage

end Timbre
