import Timbre.Proofs.Stage

/-! # Preparing after accepting

What is computed before a stage works is computed from formats that the stage has accepted, and a
kernel refuses what it cannot work on when it accepts. So preparing never fails after that, for any
number of workers. The only kernel of the library that could fail, the filter bank, asks for the
sampling rate, which it has asked for before.
-/
namespace Timbre

namespace Kernel

/-- What is accepted can be prepared for. -/
def Prepares (k : Kernel) : Prop :=
  ∀ settings shape plan (input : Format k.input) (known output : Format k.output) count n workers,
    (k.accept settings shape input known count).answer = .ok (output, n) →
      ∃ plan', k.prepare settings (k.accept settings shape input known count).shape plan input
        output workers = .ok plan'

variable {k : Kernel}

/-- Most kernels compute their plan from whatever they are given. -/
theorem prepares_of_forall (h : ∀ settings shape plan input output workers,
    ∃ plan', k.prepare settings shape plan input output workers = .ok plan') : k.Prepares :=
  fun settings _ plan input _ output _ _ workers _ => h settings _ plan input output workers

theorem prepares_filterBank : FilterBank.kernel.Prepares := by
  intro settings shape plan input known output count n workers haccept
  obtain ⟨hz, hrate, -⟩ := bind_eq_ok_iff.1 haccept
  exact ⟨_, bind_pure_eq_ok hrate _⟩

theorem prepares_of_mem_builtin (h : k ∈ builtinKernels) : k.Prepares := by
  simp only [builtinKernels, List.mem_cons, List.not_mem_nil, or_false] at h
  rcases h with rfl | rfl | rfl | rfl | rfl | rfl | rfl | rfl | rfl | rfl | rfl | rfl | rfl | rfl
  any_goals exact prepares_of_forall fun _ _ _ _ _ _ => ⟨_, rfl⟩
  exact prepares_filterBank

end Kernel

variable {f : AnyFormat} {count n : Nat} {warnings : List Warning}

theorem Stage.exists_prepare {k : Kernel} {s s' : Stage k} (hk : k.Prepares)
    (h : s.accept f count = ⟨s', .ok n, warnings⟩) (workers : Nat) :
    ∃ t, s'.prepare workers = .ok t := by
  obtain ⟨input, known, output, -, -, hanswer, rfl⟩ := accept_eq_ok h
  obtain ⟨plan, hplan⟩ := hk _ _ s.plan input known output count n (max workers 1) hanswer
  unfold prepare
  rw [hplan]
  exact ⟨_, rfl⟩

theorem Transform.exists_prepare {r : Registry} {name : String} {params : Params}
    {fresh t : Transform} (hr : ∀ k ∈ r.kernels, k.Prepares)
    (hcreate : r.create name params = .ok fresh)
    (haccept : fresh.accept f count = ⟨t, .ok n, warnings⟩) (workers : Nat) :
    ∃ t', t.prepare workers = .ok t' := by
  obtain ⟨k, hk, settings, rfl⟩ := Registry.create_eq_ok hcreate
  obtain ⟨s, hs, rfl⟩ := accept_eq_ok haccept
  obtain ⟨s', hs'⟩ := Stage.exists_prepare (hr k hk) hs workers
  unfold prepare
  rw [hs']
  exact ⟨_, rfl⟩

end Timbre
