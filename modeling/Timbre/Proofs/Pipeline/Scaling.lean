import Timbre.Proofs.Kernel.Grouping
import Timbre.Proofs.Pipeline.History
import Timbre.Proofs.Stage

/-! # Builders for several signals

A builder for several signals differs from the builder for one in the numbers of elements only: all
of them are multiplied. Every way to assemble keeps it so, as long as it succeeds for the one
signal; for several signals more may be accepted, such as groups that one signal does not fill.
-/
namespace Timbre

theorem Stage.accept_times {k : Kernel} {s s' : Stage k} {f : AnyFormat} {count n : Nat}
    {warnings : List Warning} (hk : k.Separable) (hs : s.shape = k.shape)
    (h : s.accept f count = ⟨s', .ok n, warnings⟩) (m : Nat) :
    ∃ warnings', s.accept f (m * count) = ⟨s'.times m, .ok (m * n), warnings'⟩ := by
  obtain ⟨input, known, output, hinput, hknown, hanswer, rfl⟩ := accept_eq_ok h
  rw [hs] at hanswer ⊢
  obtain ⟨htimes, hshape⟩ := hk.accept_times s.settings input known output count n m hanswer
  rw [← hs] at htimes
  have haccept := accept_eq hinput hknown htimes
  rw [hs, hshape] at haccept
  exact ⟨_, haccept⟩

namespace Transform

/-- The transform with `m` times as many output elements. -/
def times (t : Transform) (m : Nat) : Transform := ⟨t.kernel, t.stage.times m⟩

variable {t fresh : Transform} {f : AnyFormat} {count n : Nat} {warnings : List Warning}

theorem outputCount_of_accept (h : fresh.accept f count = ⟨t, .ok n, warnings⟩) :
    t.outputCount = n := by
  obtain ⟨k, s⟩ := fresh
  obtain ⟨s', hs, rfl⟩ := accept_eq_ok h
  obtain ⟨_, _, _, -, -, -, rfl⟩ := Stage.accept_eq_ok hs
  rfl

theorem accept_times {r : Registry} {name : String} {params : Params}
    (hr : ∀ k ∈ r.kernels, k.Separable) (hcreate : r.create name params = .ok fresh)
    (h : fresh.accept f count = ⟨t, .ok n, warnings⟩) (m : Nat) :
    ∃ warnings', fresh.accept f (m * count) = ⟨t.times m, .ok (m * n), warnings'⟩ := by
  obtain ⟨k, hk, settings, rfl⟩ := Registry.create_eq_ok hcreate
  obtain ⟨s, hs, rfl⟩ := accept_eq_ok h
  obtain ⟨warnings', htimes⟩ := Stage.accept_times (hr k hk) rfl hs m
  refine ⟨warnings', ?_⟩
  unfold accept
  dsimp only
  rw [htimes]
  rfl

end Transform

def Entry.times (e : Entry) (m : Nat) : Entry := { e with transform := e.transform.times m }

namespace Builder

variable {b : Builder} {e : Entry} {id : StageId}

def times (b : Builder) (m : Nat) : Builder :=
  { b with sourceCount := m * b.sourceCount, stages := b.stages.map (·.times m) }

theorem fresh_times (registry : Registry) (source : AnyFormat) (m : Nat) :
    (fresh registry source 1).times m = fresh registry source m := by
  simp [times, fresh]

theorem size_times (m : Nat) : (b.times m).size = b.size := by
  simp [times, size]

theorem getElem?_stages_times (m i : Nat) :
    (b.times m).stages[i]? = b.stages[i]?.map (·.times m) := by
  simp [times]

theorem outputOf_times {f : AnyFormat} {count : Nat} (h : b.outputOf id = .ok (f, count))
    (m : Nat) : (b.times m).outputOf id = .ok (f, m * count) := by
  cases id with
  | source =>
    cases h
    rfl
  | stage i =>
    cases hi : b.stages[i]? with
    | none => simp [outputOf, entry, hi] at h
    | some e =>
      have htimes : (b.times m).stages[i]? = some (e.times m) := by
        rw [getElem?_stages_times, hi, Option.map_some]
      rw [outputOf_stage hi] at h
      rw [outputOf_stage htimes]
      cases h
      rfl

theorem findChild?_times (m : Nat) (parent : StageId) (link : Link) :
    (b.times m).findChild? parent link = b.findChild? parent link := by
  have hfor : (b.times m).isFor link = b.isFor link := by
    funext i
    unfold isFor
    rw [getElem?_stages_times]
    cases b.stages[i]? <;> rfl
  have hchildren : (b.times m).children parent = b.children parent := by
    cases parent with
    | source => rfl
    | stage i =>
      unfold children entry
      dsimp only
      rw [getElem?_stages_times]
      cases b.stages[i]? <;> rfl
  unfold findChild?
  rw [hfor, hchildren]

theorem linkChild_times (b : Builder) (parent : StageId) (child m : Nat) :
    (b.linkChild parent child).times m = (b.times m).linkChild parent child := by
  cases parent with
  | source => rfl
  | stage i =>
    unfold linkChild times modify
    congr 1
    apply Array.ext_getElem?
    intro j
    simp only [Array.getElem?_map, Array.getElem?_modify]
    split
    · cases b.stages[j]? <;> rfl
    · rfl

theorem attach_times (b : Builder) (e : Entry) (m : Nat) :
    (b.attach e).times m = (b.times m).attach (e.times m) := by
  unfold attach
  rw [linkChild_times, size_times]
  simp only [times, Array.map_push]
  rfl

theorem Accepts.times (hr : ∀ k ∈ b.registry.kernels, k.Separable) (h : b.Accepts e) (m : Nat) :
    (b.times m).Accepts (e.times m) := by
  obtain ⟨fresh, format, count, n, warnings, hcreate, hout, haccept⟩ := h
  obtain ⟨warnings', htimes⟩ := Transform.accept_times hr hcreate haccept m
  exact ⟨fresh, format, m * count, m * n, warnings', hcreate, outputOf_times hout m, htimes⟩

theorem makeEntry_times (hr : ∀ k ∈ b.registry.kernels, k.Separable) {parent : StageId}
    {link : Link} (h : (b.makeEntry parent link).1 = .ok e) (m : Nat) :
    ((b.times m).makeEntry parent link).1 = .ok (e.times m) := by
  obtain ⟨haccepts, hlink, hparent, hchildren, hfeatures⟩ := makeEntry_eq_ok_iff.1 h
  exact makeEntry_eq_ok_iff.2 ⟨haccepts.times hr m, hlink, hparent, hchildren, hfeatures⟩

theorem follow_times (hr : ∀ k ∈ b.registry.kernels, k.Separable) {parent next : StageId}
    {link : Link} (h : (b.follow parent link).answer = .ok next) (m : Nat) :
    ((b.times m).follow parent link).answer = .ok next ∧
      ((b.times m).follow parent link).state = (b.follow parent link).state.times m := by
  unfold follow at h ⊢
  rw [findChild?_times]
  cases hfind : b.findChild? parent link with
  | some id =>
    rw [hfind] at h
    exact ⟨h, rfl⟩
  | none =>
    rw [hfind] at h
    dsimp only at h ⊢
    cases he : (b.makeEntry parent link).1 with
    | error err =>
      rw [(add_of_error he).2] at h
      cases h
    | ok e =>
      obtain ⟨hstate, hanswer⟩ := add_of_ok he
      obtain ⟨hstate', hanswer'⟩ := add_of_ok (makeEntry_times hr he m)
      rw [hanswer] at h
      rw [hstate', hanswer', hstate, attach_times, size_times]
      exact ⟨h, rfl⟩

/-- A chain that is accepted for one signal is accepted for several: what is assembled differs in
the numbers of elements, which are multiplied. -/
theorem addChainFrom_times (hr : ∀ k ∈ b.registry.kernels, k.Separable) {last : StageId}
    {chain : List Link} (h : (b.addChainFrom id chain).answer = .ok last) (m : Nat) :
    ((b.times m).addChainFrom id chain).answer = .ok last ∧
      ((b.times m).addChainFrom id chain).state = (b.addChainFrom id chain).state.times m := by
  induction chain generalizing b id with
  | nil => exact ⟨h, rfl⟩
  | cons link chain ih =>
    simp only [addChainFrom] at h ⊢
    cases hfollow : (b.follow id link).answer with
    | error err => simp [hfollow] at h
    | ok next =>
      obtain ⟨hanswer, hstate⟩ := follow_times hr hfollow m
      simp only [hfollow] at h
      simp only [hanswer, hstate]
      refine ih ?_ h
      rw [(extends_follow b id link).keeps.registry]
      exact hr

end Builder

end Timbre
