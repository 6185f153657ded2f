import Timbre.Proofs.Kernel.Library
import Timbre.Proofs.Kernel.Workers

/-! # Stages that have accepted a format

A stage that was created, has accepted a format and is prepared works on every collection that
conforms to this format, and what it writes conforms to its output format.
-/
namespace Timbre

namespace Kind

/-- The names of the kinds that kernels read are the names of no other kind. -/
theorem eq_of_sameAs {k j : Kind} (hk : k = .array .int16 ∨ k = Signal) (hj : j ≠ .identity)
    (h : k.id.sameAs j.id = true) : k = j := by
  have hchars : k.id.name.toList = j.id.name.toList := by
    cases j with
    | identity => exact absurd rfl hj
    | array s => rcases hk with rfl | rfl <;> exact congrArg String.toList (beq_iff_eq.1 h)
    | single s => rcases hk with rfl | rfl <;> exact congrArg String.toList (beq_iff_eq.1 h)
  cases j with
  | identity => exact absurd rfl hj
  | single s => rcases hk with rfl | rfl <;> simp [Kind.id, FormatId.name] at hchars
  | array s =>
    cases s <;> rcases hk with rfl | rfl <;>
      simp [Kind.id, FormatId.name, SampleType.name, toString] at hchars ⊢

theorem isIdentity_id_iff {k : Kind} : k.id.isIdentity = true ↔ k = .identity := by
  cases k <;> simp [Kind.id, FormatId.isIdentity]

end Kind

/-- So many elements of the kind of the format, all of which fit it. -/
def AnyBuffers.Conforms (b : AnyBuffers) (f : AnyFormat) (count : Nat) : Prop :=
  ∃ c : Buffers f.kind, b = ⟨f.kind, c⟩ ∧ f.format.FitsAll count c.elements

theorem Format.downcast_mk {k : Kind} (f : Format k) (c : Buffers k) :
    f.downcast ⟨k, c⟩ = .ok c := by
  unfold downcast
  have hsame : k.id.sameAs (AnyBuffers.id ⟨k, c⟩) = true := FormatId.sameAs_self k.id
  rw [if_pos hsame, AnyBuffers.as?_mk]

/-- The collection is of the kind of the format, with elements of the same size; there are so many
of them, and each passes the check of the format. -/
def AnyBuffers.Suits (b : AnyBuffers) (f : AnyFormat) (count : Nat) : Prop :=
  ∃ c : Buffers f.kind, b = ⟨f.kind, c⟩ ∧ c.format.bytes = f.format.bytes ∧ c.count = count ∧
    ∀ x ∈ c.elements, f.format.flaw? x = none

theorem AnyBuffers.Suits.conforms {b : AnyBuffers} {f : AnyFormat} {count : Nat}
    (h : b.Suits f count) : b.Conforms f count := by
  obtain ⟨c, rfl, -, hcount, hflaw⟩ := h
  exact ⟨c, rfl, hcount, fun x hx => Format.fits_of_flaw? (hflaw x hx)⟩

namespace Registry

variable {r : Registry} {name : String} {params : Params} {t : Transform}

theorem setParameters_eq_ok {k : Kernel} (settings : k.Settings) {entries : List (String × String)}
    (h : (Transform.mk k { Stage.new k with settings := settings }).setParameters entries = .ok t) :
    ∃ settings', t = ⟨k, { Stage.new k with settings := settings' }⟩ := by
  induction entries generalizing settings with
  | nil =>
    cases h
    exact ⟨settings, rfl⟩
  | cons e entries ih =>
    unfold Transform.setParameters Transform.setParameter Stage.setParameter at h
    dsimp only at h
    cases hset : k.set settings e.1 e.2.toList with
    | error problem =>
      rw [hset] at h
      cases problem <;> cases h
    | ok settings' =>
      rw [hset] at h
      exact ih settings' h

theorem create_eq_ok (h : r.create name params = .ok t) :
    ∃ k ∈ r.kernels, ∃ settings, t = ⟨k, { Stage.new k with settings := settings }⟩ := by
  unfold create lookUp at h
  cases hfind : r.find? name with
  | none =>
    rw [hfind] at h
    cases h
  | some k =>
    rw [hfind] at h
    obtain ⟨settings, ht⟩ := setParameters_eq_ok k.settings h
    exact ⟨k, List.mem_of_find?_eq_some hfind, settings, ht⟩

end Registry

namespace Stage

variable {k : Kernel} {s : Stage k} {f : AnyFormat} {count : Nat}

theorem accept_eq_ok {s' : Stage k} {n : Nat} {warnings : List Warning}
    (h : s.accept f count = ⟨s', .ok n, warnings⟩) :
    ∃ input known output, s.takeInput f = .ok input ∧ s.output.takeSource input = .ok known ∧
      (k.accept s.settings s.shape input known count).answer = .ok (output, n) ∧
      s' = ⟨s.settings, (k.accept s.settings s.shape input known count).shape, s.plan, input,
        output, n, false⟩ := by
  unfold accept at h
  cases hinput : s.takeInput f with
  | error e =>
    rw [hinput] at h
    cases h
  | ok input =>
    rw [hinput] at h
    dsimp only at h
    cases hknown : s.output.takeSource input with
    | error e =>
      rw [hknown] at h
      cases h
    | ok known =>
      rw [hknown] at h
      dsimp only at h
      cases hanswer : (k.accept s.settings s.shape input known count).answer with
      | error e =>
        rw [hanswer] at h
        cases h
      | ok answer =>
        rw [hanswer] at h
        cases h
        exact ⟨input, known, answer.1, rfl, hknown, hanswer, rfl⟩

theorem accept_eq {input : Format k.input} {known output : Format k.output} {n : Nat}
    (hinput : s.takeInput f = .ok input) (hknown : s.output.takeSource input = .ok known)
    (hanswer : (k.accept s.settings s.shape input known count).answer = .ok (output, n)) :
    s.accept f count =
      ⟨⟨s.settings, (k.accept s.settings s.shape input known count).shape, s.plan, input, output, n,
        false⟩, .ok n, (k.accept s.settings s.shape input known count).warnings⟩ := by
  unfold accept
  rw [hinput]
  dsimp only
  rw [hknown]
  dsimp only
  rw [hanswer]

theorem takeInput_eq_ok (hk : k.Reliable) (hf : f.kind ≠ .identity) {input : Format k.input}
    (h : s.takeInput f = .ok input) : f = ⟨k.input, input⟩ ∨ k.input = .identity := by
  by_cases hidentity : k.input = .identity
  · exact .inr hidentity
  · have hinput : k.input = .array .int16 ∨ k.input = Signal := by
      rcases hk.input_eq with hinput | hinput | hinput
      · exact .inl hinput
      · exact .inr hinput
      · exact absurd hinput hidentity
    unfold takeInput at h
    split at h
    · rename_i hsame
      have hkind := Kind.eq_of_sameAs hinput hf hsame
      obtain ⟨j, g⟩ := f
      dsimp only at hkind
      subst hkind
      rw [AnyFormat.as?_mk] at h
      cases h
      exact .inl rfl
    · cases h

theorem takeElements_eq_ok (hinput : f = ⟨k.input, s.input⟩ ∨ k.input = .identity) {b : AnyBuffers}
    (hb : b.Conforms f count) :
    ∃ c, s.takeElements b = .ok c ∧ s.input.FitsAll count c.elements := by
  obtain ⟨c, rfl, hfits⟩ := hb
  unfold takeElements
  by_cases hidentity : k.input = .identity
  · rw [if_pos (Kind.isIdentity_id_iff.2 hidentity)]
    refine ⟨_, rfl, ?_⟩
    have hcount : (AnyBuffers.mk f.kind c).count = count := hfits.1
    rw [hcount]
    exact s.input.fitsAll_replicate count
  · rw [if_neg (mt Kind.isIdentity_id_iff.1 hidentity)]
    rcases hinput with rfl | hinput
    · exact ⟨c, s.input.downcast_mk c, hfits⟩
    · exact absurd hinput hidentity

theorem execute_eq_ok_iff {b : AnyBuffers} {x : Execution k} :
    s.execute b ⟨_, s.freshOutputs⟩ = .ok x ↔ s.prepared = true ∧ ∃ c w,
      s.takeElements b = .ok c ∧ s.work c.elements s.freshOutputs.elements = .ok w ∧
        x = ⟨{ s with plan := w.plan }, { s.freshOutputs with elements := w.output },
          w.warnings⟩ := by
  unfold execute
  rw [AnyBuffers.as?_mk]
  constructor
  · intro h
    split at h
    · cases h
    · rename_i hprepared
      split at h
      · cases h
      · rename_i c hc
        dsimp only at h
        split at h
        · cases h
        · rename_i w hw
          cases h
          exact ⟨by simpa using hprepared, c, w, hc, hw, rfl⟩
  · rintro ⟨hprepared, c, w, hc, hw, rfl⟩
    rw [hprepared, hc]
    dsimp only
    rw [hw]
    rfl

theorem exists_execute (hprepared : s.prepared = true) (hworks : s.Works count)
    (hinput : f = ⟨k.input, s.input⟩ ∨ k.input = .identity) {b : AnyBuffers}
    (hb : b.Conforms f count) :
    ∃ x, s.execute b ⟨_, s.freshOutputs⟩ = .ok x ∧ x.outputs.format = s.output ∧
      s.output.FitsAll s.count x.outputs.elements := by
  obtain ⟨c, hc, hfits⟩ := takeElements_eq_ok hinput hb
  obtain ⟨w, hw, hwrote⟩ := hworks c.elements hfits
  exact ⟨_, execute_eq_ok_iff.2 ⟨hprepared, c, w, hc, hw, rfl⟩, rfl, hwrote⟩

theorem exists_execute_of_steady (hk : k.Steady) {t : Stage k} {workers : Nat}
    (hprepare : s.prepare workers = .ok t) {b : AnyBuffers} {x : Execution k}
    (hx : t.execute b ⟨_, t.freshOutputs⟩ = .ok x) (workers' : Nat) :
    ∃ t' x', s.prepare workers' = .ok t' ∧ t'.execute b ⟨_, t'.freshOutputs⟩ = .ok x' ∧
      x'.outputs = x.outputs := by
  obtain ⟨plan, hprepare', hwork⟩ := hk s t workers workers' hprepare
  obtain ⟨hprepared, c, w, hc, hw, rfl⟩ := execute_eq_ok_iff.1 hx
  obtain ⟨w', hw', houtput⟩ := hwork _ _ _ hw
  refine ⟨_, _, hprepare', execute_eq_ok_iff.2 ⟨hprepared, c, w', hc, hw', rfl⟩, ?_⟩
  dsimp only
  rw [houtput]
  rfl

end Stage

namespace Transform

variable {k : Kernel} {s : Stage k} {t t' fresh : Transform} {f : AnyFormat} {count n : Nat}
  {workers : Nat} {warnings : List Warning}

theorem accept_eq_ok (h : (Transform.mk k s).accept f count = ⟨t, .ok n, warnings⟩) :
    ∃ s', s.accept f count = ⟨s', .ok n, warnings⟩ ∧ t = ⟨k, s'⟩ := by
  unfold accept at h
  cases haccept : s.accept f count with
  | mk s' answer warnings' =>
    rw [haccept] at h
    cases h
    exact ⟨s', rfl, rfl⟩

theorem prepare_eq_ok (h : (Transform.mk k s).prepare workers = .ok t) :
    ∃ plan, k.prepare s.settings s.shape s.plan s.input s.output (max workers 1) = .ok plan ∧
      t = ⟨k, { s with plan := plan, prepared := true }⟩ := by
  unfold prepare at h
  split at h
  · cases h
  · rename_i t hs
    cases h
    obtain ⟨plan, hplan, rfl⟩ := Stage.prepare_eq_ok hs
    exact ⟨plan, hplan, rfl⟩

theorem outputFormat_of_prepare (h : t.prepare workers = .ok t') :
    t'.outputFormat = t.outputFormat ∧ t'.outputCount = t.outputCount := by
  obtain ⟨k, s⟩ := t
  obtain ⟨plan, -, rfl⟩ := prepare_eq_ok h
  exact ⟨rfl, rfl⟩

theorem execute_eq_ok {b : AnyBuffers} {x : Stage.Execution k}
    (h : s.execute b ⟨_, s.freshOutputs⟩ = .ok x) :
    (Transform.mk k s).execute b (Transform.mk k s).freshOutputs =
      .ok ⟨⟨k, x.stage⟩, ⟨_, x.outputs⟩, x.warnings⟩ := by
  unfold execute freshOutputs
  dsimp only
  rw [h]

/-- A transform that was created, has accepted a concrete format and is prepared executes on every
collection that conforms to the format, and what it writes conforms to its output format. -/
theorem exists_execute {r : Registry} {name : String} {params : Params}
    (hr : ∀ k ∈ r.kernels, k.Reliable) (hcreate : r.create name params = .ok fresh)
    (haccept : fresh.accept f count = ⟨t, .ok n, warnings⟩) (hprepare : t.prepare workers = .ok t')
    (hf : f.kind ≠ .identity)
    (hbounded : t.name = FilterBank.kernel.name → t.inputFormat.points ≤ 2 ^ 24) {b : AnyBuffers}
    (hb : b.Conforms f count) :
    ∃ x, t'.execute b t'.freshOutputs = .ok x ∧ x.outputs.format = t'.outputFormat ∧
      x.outputs.Conforms t'.outputFormat t'.outputCount := by
  obtain ⟨k, hk, settings, rfl⟩ := Registry.create_eq_ok hcreate
  obtain ⟨s, hs, rfl⟩ := accept_eq_ok haccept
  obtain ⟨input, known, output, hinput, -, hanswer, rfl⟩ := Stage.accept_eq_ok hs
  obtain ⟨plan, hplan, rfl⟩ := prepare_eq_ok hprepare
  have hworks := (hr k hk).soundOn settings input known output count n (max workers 1) plan hbounded
    hanswer hplan
  obtain ⟨x, hx, hformat, hfits⟩ := Stage.exists_execute rfl hworks
    (Stage.takeInput_eq_ok (hr k hk) hf hinput) hb
  exact ⟨_, execute_eq_ok hx, congrArg (AnyFormat.mk k.output) hformat, x.outputs, rfl, hfits⟩

theorem outputFormat_ne_identity {r : Registry} {name : String} {params : Params}
    (hr : ∀ k ∈ r.kernels, k.Reliable) (hcreate : r.create name params = .ok fresh)
    (haccept : fresh.accept f count = ⟨t, .ok n, warnings⟩) : t.outputFormat.kind ≠ .identity := by
  obtain ⟨k, hk, settings, rfl⟩ := Registry.create_eq_ok hcreate
  obtain ⟨s, -, rfl⟩ := accept_eq_ok haccept
  exact (hr k hk).output_ne

theorem exists_execute_of_steady (ht : t.kernel.Steady) (hprepare : t.prepare workers = .ok t')
    {b : AnyBuffers} {x : Execution} (hx : t'.execute b t'.freshOutputs = .ok x) (workers' : Nat) :
    ∃ u y, t.prepare workers' = .ok u ∧ u.execute b u.freshOutputs = .ok y ∧
      y.outputs = x.outputs := by
  obtain ⟨k, s⟩ := t
  unfold prepare at hprepare ⊢
  split at hprepare
  · cases hprepare
  · rename_i s' hs
    cases hprepare
    unfold execute at hx
    split at hx
    · cases hx
    · rename_i y hy
      cases hx
      obtain ⟨t', x', ht', hx', houtputs⟩ := Stage.exists_execute_of_steady ht hs hy workers'
      dsimp only
      rw [ht']
      exact ⟨_, _, rfl, execute_eq_ok hx', congrArg (AnyBuffers.mk k.output) houtputs⟩

end Transform

end Timbre
