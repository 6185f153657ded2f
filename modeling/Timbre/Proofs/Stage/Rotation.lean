import Timbre.Proofs.Stage.Reuse

/-! # Signals that are turned

The first difference and the details of a wavelet transform run in a circle: where a signal begins
makes no difference to them. Main statement: `execute_rotated`.
-/
namespace Timbre

namespace Stage

variable {s₀ s s' : Stage Difference.kernel} {f : Format Signal} {count n m workers : Nat}
  {warnings : List Warning}

theorem supplied_of_accept (haccept : s₀.accept ⟨Signal, f⟩ count = ⟨s, .ok n, warnings⟩)
    (hprepare : s.prepare workers = .ok s') : s'.input = f ∧ s'.output = f ∧
      Difference.Supplied s'.settings f.size s'.plan := by
  obtain ⟨input, known, output, hinput, -, hanswer, rfl⟩ := accept_eq_ok haccept
  obtain ⟨plan, hplan, rfl⟩ := prepare_eq_ok hprepare
  obtain rfl : f = input := Except.ok.inj ((takeInput_mk s₀ f).symm.trans hinput)
  cases hanswer
  exact ⟨rfl, rfl, Difference.supplied_of_prepare hplan⟩

theorem exists_execute_everywhere (haccept : s₀.accept ⟨Signal, f⟩ count = ⟨s, .ok n, warnings⟩)
    (hprepare : s.prepare workers = .ok s') {b c : Buffers Signal} (hb : f.FitsAll m b.elements)
    (hc : s'.output.FitsAll m c.elements) : ∃ x, s'.execute ⟨_, b⟩ ⟨_, c⟩ = .ok x ∧
      x.outputs.elements = b.elements.map
        (Difference.everywhere (Difference.formula Single.invSqrtTwo s'.settings)) := by
  obtain ⟨run, hwork, hyields⟩ := Difference.exists_yields
  obtain ⟨hprepared, -⟩ := prepared_of_prepare haccept hprepare
  obtain ⟨hinput, houtput, hsupplied⟩ := supplied_of_accept haccept hprepare
  obtain ⟨plan, hplan, -⟩ := exists_work_eq_map (s := s') hwork
    ((Difference.refilled_iff hsupplied).2 hsupplied) _
    (fun xs hxs => houtput ▸
      hyields s'.settings s'.shape f.size s'.plan hsupplied xs (hinput ▸ hxs))
    (hinput ▸ hb) hc
  have hexecute := execute_eq hprepared (takeElements_mk (by decide) s' b) c
  rw [hplan] at hexecute
  exact ⟨_, hexecute, rfl⟩

/-- Turned signals are answered by what their signals are answered by, turned in the same way: at
every level, with or without a cut at zero, for signals of any length and turns by any number of
places. The value at each place is the same formula of the values from this place on, the last place
included. -/
theorem execute_rotated (f : Format Signal)
    (haccept : s₀.accept ⟨Signal, f⟩ count = ⟨s, .ok n, warnings⟩)
    (hprepare : s.prepare workers = .ok s') (r : Nat) (b b' c c' : Buffers Signal)
    (hb : f.FitsAll m b.elements) (hb' : b'.elements = b.elements.map (Samples.rotated r))
    (hc : s'.output.FitsAll m c.elements) (hc' : s'.output.FitsAll m c'.elements) :
    ∃ x y, s'.execute ⟨_, b⟩ ⟨_, c⟩ = .ok x ∧ s'.execute ⟨_, b'⟩ ⟨_, c'⟩ = .ok y ∧
      x.outputs.elements = b.elements.map
        (Difference.everywhere (Difference.formula Single.invSqrtTwo s'.settings)) ∧
      y.outputs.elements = x.outputs.elements.map (Samples.rotated r) := by
  have hturned : f.FitsAll m b'.elements := by
    refine ⟨?_, fun xs hxs => ?_⟩
    · rw [hb', Array.size_map, hb.1]
    · rw [hb'] at hxs
      obtain ⟨ys, hys, rfl⟩ := Array.mem_map.1 hxs
      exact (Samples.size_rotated r ys).trans (hb.2 ys hys)
  obtain ⟨x, hx, hxs⟩ := exists_execute_everywhere haccept hprepare hb hc
  obtain ⟨y, hy, hys⟩ := exists_execute_everywhere haccept hprepare hturned hc'
  refine ⟨x, y, hx, hy, hxs, ?_⟩
  rw [hys, hxs, hb', Array.map_map, Array.map_map]
  congr 1
  funext xs
  exact Difference.everywhere_rotated _ r xs

/-- Wavelet details of three samples, and of the same samples from the second one on. -/
theorem execute_rotated_spoken : ∃ s s' : Stage Difference.kernel,
    Stage.accept { new Difference.kernel with settings := (⟨true, 2⟩ : Difference.Settings) }
      ⟨Signal, telephone 3⟩ 1 = ⟨s, .ok 1, []⟩ ∧ s.prepare 1 = .ok s' ∧ ∃ x y,
        s'.execute ⟨Signal, spoken #[1, 2, 4]⟩ ⟨Signal, spoken #[0, 0, 0]⟩ = .ok x ∧
        s'.execute ⟨Signal, spoken #[2, 4, 1]⟩ ⟨Signal, spoken #[7, 7, 7]⟩ = .ok y ∧
          y.outputs.elements = x.outputs.elements.map (Samples.rotated 1) := by
  refine ⟨_, _, rfl, rfl, ?_⟩
  have hturned : (spoken #[2, 4, 1]).elements =
      (spoken #[1, 2, 4]).elements.map (Samples.rotated 1) := by
    simp [spoken, Buffers.ofElements, Samples.rotated]
  obtain ⟨x, y, hx, hy, -, hrotated⟩ := execute_rotated (telephone 3) rfl rfl 1 (spoken #[1, 2, 4])
    (spoken #[2, 4, 1]) (spoken #[0, 0, 0]) (spoken #[7, 7, 7]) (fitsAll_spoken #[1, 2, 4]) hturned
    (fitsAll_spoken #[0, 0, 0]) (fitsAll_spoken #[7, 7, 7])
  exact ⟨x, y, hx, hy, hrotated⟩

end Stage

end Timbre
