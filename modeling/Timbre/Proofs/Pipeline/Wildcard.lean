import Timbre.Proofs.Pipeline.Soundness
import Timbre.Proofs.Stage.Rewiring

/-! # Sources of any kind

A source of the identity format fixes a rate and nothing else. Each stage below it takes the rate
and is otherwise as it was created, so it reads what it reads anyway: empty arrays, or elements of
its own kind. The checks of a run let every collection pass that takes no bytes, and what kind it
is, only the stages below the source find out. Main statement: `run_of_wildcard`.
-/
namespace Timbre

theorem eq_error_of_map {α β ε : Type} {f : α → β} {x : Except ε α} {e : ε}
    (h : x.map f = .error e) : x = .error e := by
  cases x with
  | error e' =>
    cases h
    rfl
  | ok a => cases h

theorem eq_ok_of_isOk {ε : Type} {x : Except ε Unit} (h : x.isOk = true) : x = .ok () := by
  cases x with
  | error e => cases h
  | ok u => rfl

namespace Stage

variable {k : Kernel} {s : Stage k} {b : AnyBuffers}

theorem takeElements_of_kind_ne (hk : k.input ≠ .identity) (hb : b.kind ≠ k.input) :
    s.takeElements b = .error (.mismatch k.input.id b.id) := by
  have hnone : b.as? k.input = none := by
    unfold AnyBuffers.as?
    exact dif_neg hb
  unfold takeElements Format.downcast
  rw [if_neg (mt Kind.isIdentity_id_iff.1 hk), hnone]
  dsimp only
  split <;> rfl

theorem execute_of_kind_ne (hprepared : s.prepared = true) (hk : k.input ≠ .identity)
    (hb : b.kind ≠ k.input) (outputs : AnyBuffers) :
    s.execute b outputs = .error (.mismatch k.input.id b.id) := by
  unfold execute
  rw [hprepared, takeElements_of_kind_ne hk hb]
  rfl

theorem exists_takeElements (hb : b.kind = k.input) : ∃ c, s.takeElements b = .ok c := by
  obtain ⟨j, c⟩ := b
  dsimp only at hb
  subst hb
  unfold takeElements
  split
  · exact ⟨_, rfl⟩
  · exact ⟨c, s.input.downcast_mk c⟩

theorem ne_formatMismatch_of_work {ins : Array k.input.Element} {outs : Array k.output.Element}
    {e : Error} (h : s.work ins outs = .error e) (expected found : String) :
    e ≠ .formatMismatch expected found := by
  unfold work at h
  split at h
  · split at h
    · obtain ⟨fault, -, rfl⟩ := mapError_eq_error_iff.1 h
      nofun
    · cases h
      nofun
  · obtain ⟨fault, -, rfl⟩ := mapError_eq_error_iff.1 h
    nofun

theorem ne_formatMismatch_of_execute (hb : b.kind = k.input) {e : Error}
    (h : s.execute b ⟨_, s.freshOutputs⟩ = .error e) (expected found : String) :
    e ≠ .formatMismatch expected found := by
  obtain ⟨c, hc⟩ := exists_takeElements (s := s) hb
  unfold execute at h
  rw [hc, AnyBuffers.as?_mk] at h
  dsimp only at h
  split at h
  · cases h
    nofun
  · split at h
    · rename_i hwork
      cases h
      exact ne_formatMismatch_of_work hwork expected found
    · cases h

theorem accept_congr {f g : AnyFormat} (h : s.takeInput f = s.takeInput g) (count : Nat) :
    s.accept f count = s.accept g count := by
  unfold accept
  rw [h]

theorem takeInput_identity (hk : k.input ≠ .identity) (f : Format .identity) :
    s.takeInput ⟨.identity, f⟩ = s.input.takeSource f := by
  have hsame : k.input.id.sameAs (AnyFormat.id ⟨.identity, f⟩) = true := by
    cases k.input <;> rfl
  have hnone : AnyFormat.as? k.input ⟨.identity, f⟩ = none := dif_neg (Ne.symm hk)
  unfold takeInput
  rw [if_pos hsame, hnone]

theorem accept_identity (hk : k.input ≠ .identity) (hinput : s.input = .initial k.input)
    (f : Format .identity) {count n : Nat} {t : Stage k} {warnings : List Warning}
    (h : s.accept ⟨.identity, f⟩ count = ⟨t, .ok n, warnings⟩) :
    s.accept ⟨k.input, ⟨k.input.defaultExtent, f.rate⟩⟩ count = ⟨t, .ok n, warnings⟩ := by
  rw [← h]
  refine accept_congr ?_ count
  obtain ⟨input, -, -, htake, -⟩ := accept_eq_ok h
  rw [htake]
  rw [takeInput_identity hk, hinput] at htake
  obtain ⟨hrate, hextent⟩ := Format.takeSource_eq_ok htake
  obtain ⟨extent, rate⟩ := input
  dsimp only at hrate hextent
  rw [hrate, hextent]
  exact takeInput_mk s _

end Stage

namespace Transform

variable {t t' : Transform} {b : AnyBuffers} {workers : Nat}

theorem execute_of_kind_ne (hprepare : t.prepare workers = .ok t')
    (hk : t'.kernel.input ≠ .identity) (hb : b.kind ≠ t'.kernel.input) (outputs : AnyBuffers) :
    t'.execute b outputs = .error (.mismatch t'.kernel.input.id b.id) := by
  obtain ⟨k, s⟩ := t
  obtain ⟨plan, -, rfl⟩ := prepare_eq_ok hprepare
  unfold execute
  rw [Stage.execute_of_kind_ne rfl hk hb]

theorem ne_formatMismatch_of_execute (hb : b.kind = t.kernel.input) {e : Error}
    (h : t.execute b t.freshOutputs = .error e) (expected found : String) :
    e ≠ .formatMismatch expected found := by
  unfold execute at h
  split at h
  · rename_i e' hx
    cases h
    exact Stage.ne_formatMismatch_of_execute hb hx expected found
  · cases h

theorem kind_of_execute {outputs : AnyBuffers} {x : Execution} (h : t.execute b outputs = .ok x) :
    x.outputs.kind = t.kernel.output := by
  unfold execute at h
  split at h
  · cases h
  · cases h
    rfl

end Transform

namespace Pipeline

variable {p : Pipeline} {source : AnyBuffers} {outs : List AnyBuffers} {r : Run} {s : Step}

theorem Reached.exists_failure (h : p.Scheduled) {before after steps : List Step} {e : Error}
    {warnings : List Warning} (hsteps : p.steps = before ++ (steps ++ after))
    (hlen : outs.length = before.length) (hr : p.Reached source outs r)
    (hrun : p.runSteps source r outs.length steps = .error (e, warnings)) :
    ∃ (outs : List AnyBuffers) (s : Step) (input : AnyBuffers), p.Wrote source outs ∧
      p.steps[outs.length]? = some s ∧ readFrom source outs s = some input ∧
        s.transform.execute input s.transform.freshOutputs = .error e := by
  induction steps generalizing before outs r with
  | nil => cases hrun
  | cons s steps ih =>
    have hs : p.steps[outs.length]? = some s := by
      rw [hsteps, hlen, List.getElem?_append_right (Nat.le_refl _), Nat.sub_self]
      rfl
    obtain ⟨input, hread, hinput⟩ := hr.exists_input h hs
    rw [Pipeline.runSteps, runStep, hinput] at hrun
    dsimp only at hrun
    cases hx : s.transform.execute input s.transform.freshOutputs with
    | error e' =>
      rw [hx] at hrun
      cases hrun
      exact ⟨outs, s, input, hr.wrote, hs, hread, hx⟩
    | ok x =>
      rw [hx] at hrun
      have hlen' : (outs ++ [x.outputs]).length = outs.length + 1 := by simp
      have hsteps' : p.steps = (before ++ [s]) ++ (steps ++ after) := by simp [hsteps]
      exact ih hsteps' (by simp [hlen]) (hr.step h hs hread hx _) (by rw [hlen']; exact hrun)

theorem runSteps_of_failure {before : List Step} (after : List Step) {e : Error} (position : Nat)
    (hbefore : ∀ t ∈ before, t.input = none ∧
      ∃ x, t.transform.execute source t.transform.freshOutputs = .ok x)
    (hs : s.input = none)
    (hfail : s.transform.execute source s.transform.freshOutputs = .error e) :
    ∃ warnings, p.runSteps source r position (before ++ s :: after) = .error (e, warnings) := by
  induction before generalizing r position with
  | nil =>
    refine ⟨r.warnings, ?_⟩
    rw [List.nil_append, runSteps, runStep, Run.input, hs]
    dsimp only
    rw [hfail]
  | cons t before ih =>
    obtain ⟨⟨ht, x, hx⟩, hrest⟩ := List.forall_mem_cons.1 hbefore
    rw [List.cons_append, runSteps, runStep, Run.input, ht]
    dsimp only
    rw [hx]
    exact ih (position + 1) hrest

def withSource (p : Pipeline) (f : AnyFormat) : Pipeline := { p with source := f }

theorem runSteps_withSource (p : Pipeline) (f : AnyFormat) (source : AnyBuffers) (r : Run)
    (position : Nat) (steps : List Step) :
    (p.withSource f).runSteps source r position steps = p.runSteps source r position steps := by
  induction steps generalizing r position with
  | nil => rfl
  | cons s steps ih =>
    have hstep : (p.withSource f).runStep source r s position = p.runStep source r s position := rfl
    rw [runSteps, runSteps, hstep]
    cases p.runStep source r s position with
    | error e => rfl
    | ok r' => exact ih r' (position + 1)

theorem Scheduled.withSource (h : p.Scheduled) (f : AnyFormat) : (p.withSource f).Scheduled :=
  ⟨h.linked, h.size_eq, h.order_eq, h.valid, h.node_eq, h.parent?_eq, h.retained, h.sorted,
    h.release⟩

end Pipeline

/-- The step reads the source, but not collections of this kind. -/
def Step.Refuses (s : Step) (kind : Kind) : Prop :=
  s.input = none ∧ s.transform.kernel.input ≠ kind

instance (s : Step) (kind : Kind) : Decidable (s.Refuses kind) :=
  inferInstanceAs (Decidable (_ ∧ _))

/-- The steps that read the source read collections of this kind. -/
def Pipeline.SourceReads (p : Pipeline) (kind : Kind) : Prop := ∀ s ∈ p.steps, ¬ s.Refuses kind

theorem Pipeline.SourceReads.input_eq {p : Pipeline} {kind : Kind} (h : p.SourceReads kind)
    {s : Step} (hs : s ∈ p.steps) (hi : s.input = none) : s.transform.kernel.input = kind :=
  not_not.1 fun hne => h s hs ⟨hi, hne⟩

/-- The format of a kind with no more to it than a rate: arrays are empty. -/
def AnyFormat.blank (kind : Kind) (rate : Option Rate) : AnyFormat :=
  ⟨kind, ⟨kind.defaultExtent, rate⟩⟩

namespace AnyBuffers

variable {b : AnyBuffers}

/-- Every element has the length that the collection's own format asks for. -/
def WellShaped (b : AnyBuffers) : Prop := ∀ x ∈ b.buffers.elements, b.buffers.format.Fits x

/-- A collection that takes no bytes, of a kind that kernels read, has empty arrays for its
elements. -/
theorem WellShaped.conforms_blank (h : b.WellShaped) (hbytes : b.buffers.format.bytes = 0)
    (hkind : b.kind = .array .int16 ∨ b.kind = Signal) (rate : Option Rate) :
    b.Conforms (.blank b.kind rate) b.count := by
  obtain ⟨kind, c⟩ := b
  refine ⟨c, rfl, rfl, fun x hx => ?_⟩
  have hfits := h x hx
  dsimp only at hkind
  rcases hkind with rfl | rfl
  · have hextent : c.format.extent = 0 := (Nat.mul_eq_zero.1 hbytes).resolve_right (by decide)
    exact hfits.trans hextent
  · have hextent : c.format.extent = 0 := (Nat.mul_eq_zero.1 hbytes).resolve_right (by decide)
    exact hfits.trans hextent

end AnyBuffers

namespace Pipeline

variable {p : Pipeline} {source : AnyBuffers}

theorem checkSource_identity_iff (hp : p.source.kind = .identity) :
    p.checkSource source = .ok () ↔
      source.buffers.format.bytes = 0 ∧ source.count = p.sourceCount := by
  obtain ⟨⟨kind, f⟩, sourceCount, _, _, _, _, _⟩ := p
  dsimp only at hp
  subst hp
  have hsame : (AnyFormat.id ⟨.identity, f⟩).sameAs source.id = true := rfl
  have hzero : f.bytes = 0 := rfl
  unfold checkSource
  dsimp only
  rw [hsame, hzero]
  by_cases hbytes : source.buffers.format.bytes = 0 <;>
    by_cases hcount : source.count = sourceCount <;> simp [hbytes, hcount, Format.validate]

end Pipeline

namespace Kernel

theorem input_of_mem_builtin {k : Kernel} (h : k ∈ builtinKernels) :
    k.input = .array .int16 ∨ k.input = Signal := by
  simp only [builtinKernels, List.mem_cons, List.not_mem_nil, or_false] at h
  rcases h with rfl | rfl | rfl | rfl | rfl | rfl | rfl | rfl | rfl | rfl | rfl | rfl | rfl | rfl
  · exact .inl rfl
  all_goals exact .inr rfl

theorem input_ne_identity_of_mem_builtin {k : Kernel} (h : k ∈ builtinKernels) :
    k.input ≠ .identity := by
  intro hidentity
  rcases input_of_mem_builtin h with hinput | hinput
  · rw [hidentity] at hinput
    cases hinput
  · rw [hidentity] at hinput
    cases hinput

end Kernel

namespace Builder

variable {b : Builder} {p : Pipeline} {order : List (Nat × Nat)} {batch : AnyBuffers} {k : Nat}
  {s : Step}

section Schedules

variable (h : b.Schedules p order) (hb : b.WellFormed)
  (hr : ∀ k ∈ b.registry.kernels, k ∈ builtinKernels) (hs : p.steps[k]? = some s)
include h hb hr hs

theorem Schedules.exists_accepted : s.transform.kernel ∈ builtinKernels ∧
    ∃ (t t' : Stage s.transform.kernel) (format : AnyFormat) (count n : Nat)
      (warnings : List Warning), p.feedOf? s = some (format, count) ∧
        t.accept format count = ⟨t', .ok n, warnings⟩ := by
  obtain ⟨x, e, hx, he, hprepare, -, -, hplace⟩ := h.stage k s hs
  obtain ⟨fresh, format, count, n, warnings, hcreate, hparent, haccept⟩ := hb.accepts x.1 e he
  have hfeed := h.feedOf?_eq hplace hparent
  obtain ⟨kernel, hkernel, settings, rfl⟩ := Registry.create_eq_ok hcreate
  obtain ⟨t, ht, heq⟩ := Transform.accept_eq_ok haccept
  rw [heq] at hprepare
  obtain ⟨plan, -, heq'⟩ := Transform.prepare_eq_ok hprepare
  rw [heq']
  exact ⟨hr kernel hkernel, _, t, format, count, n, warnings, hfeed, ht⟩

theorem Schedules.kind_of_readFrom {outs : List AnyBuffers} {input : AnyBuffers}
    (hreads : p.SourceReads batch.kind) (hw : p.Wrote batch outs)
    (hread : Pipeline.readFrom batch outs s = some input) :
    input.kind = s.transform.kernel.input := by
  obtain ⟨hkernel, t, t', format, count, n, warnings, hfeed, haccept⟩ := h.exists_accepted hb hr hs
  unfold Pipeline.readFrom at hread
  unfold Pipeline.feedOf? at hfeed
  cases hi : s.input with
  | none =>
    rw [hi] at hread
    cases hread
    exact (hreads.input_eq (List.mem_of_getElem? hs) hi).symm
  | some j =>
    rw [hi] at hread hfeed
    obtain ⟨u, hu, hpair⟩ := Option.map_eq_some_iff.1 hfeed
    obtain ⟨u', input', x, hu', -, hx, rfl⟩ := hw.getElem? hread
    rw [hu] at hu'
    cases hu'
    cases hpair
    have hreliable := Kernel.reliable_of_mem_builtin hkernel
    obtain ⟨hukernel, -⟩ := h.exists_accepted hb hr hu
    have hne : u.transform.outputFormat.kind ≠ .identity :=
      (Kernel.reliable_of_mem_builtin hukernel).output_ne
    obtain ⟨taken, _, _, htaken, -⟩ := Stage.accept_eq_ok haccept
    have hformat := (Stage.takeInput_eq_ok hreliable hne htaken).resolve_right
      (Kernel.input_ne_identity_of_mem_builtin hkernel)
    rw [Transform.kind_of_execute hx]
    exact congrArg AnyFormat.kind hformat

section Execute

variable {f : Format .identity} (hsource : b.source = ⟨.identity, f⟩)
  (hbounded : ∀ (i : Nat) e, b.stages[i]? = some e → e.transform.name = FilterBank.kernel.name →
    e.transform.inputFormat.points ≤ 2 ^ 24)
include hsource hbounded

theorem Schedules.exists_execute_blank (hi : s.input = none) {input : AnyBuffers}
    (hinput : input.Conforms (.blank s.transform.kernel.input f.rate) b.sourceCount) :
    ∃ x, s.transform.execute input s.transform.freshOutputs = .ok x ∧
      Pipeline.OutputOf s x.outputs := by
  obtain ⟨x, e, hx, he, hprepare, -, -, hplace⟩ := h.stage k s hs
  obtain ⟨fresh, format, count, n, warnings, hcreate, hparent, haccept⟩ := hb.accepts x.1 e he
  rw [Step.inputNode_eq_zero_iff.2 hi] at hplace
  rw [← Option.some_inj.1 hplace] at hparent
  cases hparent
  obtain ⟨kernel, hkernel, settings, rfl⟩ := Registry.create_eq_ok hcreate
  have hne := Kernel.input_ne_identity_of_mem_builtin (hr kernel hkernel)
  obtain ⟨t, ht, heq⟩ := Transform.accept_eq_ok haccept
  rw [hsource] at ht
  have hblank := Stage.accept_identity hne rfl f ht
  have haccept' : (Transform.mk kernel { Stage.new kernel with settings := settings }).accept
      (.blank kernel.input f.rate) b.sourceCount = ⟨e.transform, .ok n, warnings⟩ := by
    unfold Transform.accept AnyFormat.blank
    rw [hblank, heq]
  have hsame : s.transform.kernel = kernel := by
    rw [heq] at hprepare
    obtain ⟨plan, -, hs'⟩ := Transform.prepare_eq_ok hprepare
    rw [hs']
  rw [hsame] at hinput
  exact Transform.exists_execute (fun k hk => Kernel.reliable_of_mem_builtin (hr k hk)) hcreate
    haccept' hprepare hne (hbounded x.1 e he) hinput

end Execute

end Schedules

section Run

variable (h : b.Schedules p order) (hb : b.WellFormed)
  (hr : ∀ k ∈ b.registry.kernels, k ∈ builtinKernels)
include h hb hr

theorem Schedules.ne_formatMismatch (hreads : p.SourceReads batch.kind)
    (hcheck : p.checkSource batch = .ok ()) (expected found : String) :
    (p.run batch).answer ≠ .error (.formatMismatch expected found) := by
  intro hrun
  unfold Pipeline.run at hrun
  rw [hcheck] at hrun
  dsimp only at hrun
  cases hsteps : p.runSteps batch p.start 0 p.steps with
  | ok r =>
    rw [hsteps] at hrun
    cases hrun
  | error failure =>
    obtain ⟨e, warnings⟩ := failure
    rw [hsteps] at hrun
    obtain rfl : e = .formatMismatch expected found := Except.error.inj hrun
    have hall : p.steps = [] ++ (p.steps ++ []) := by simp
    obtain ⟨outs, s, input, hw, hs, hread, hx⟩ :=
      (Pipeline.reached_start p batch).exists_failure h.scheduled hall rfl hsteps
    have hkind := h.kind_of_readFrom hb hr hs hreads hw hread
    exact Transform.ne_formatMismatch_of_execute hkind hx expected found rfl

variable {f : Format .identity} (hsource : b.source = ⟨.identity, f⟩)
include hsource

theorem Schedules.conforms_blank (hcheck : p.checkSource batch = .ok ())
    (hshape : batch.WellShaped) (hs : p.steps[k]? = some s)
    (hkind : s.transform.kernel.input = batch.kind) :
    batch.Conforms (.blank batch.kind f.rate) b.sourceCount := by
  obtain ⟨hkernel, -⟩ := h.exists_accepted hb hr hs
  have hidentity : p.source.kind = .identity := by rw [h.source_eq, hsource]
  obtain ⟨hbytes, hcount⟩ := (Pipeline.checkSource_identity_iff hidentity).1 hcheck
  rw [← h.sourceCount_eq, ← hcount]
  exact hshape.conforms_blank hbytes (hkind ▸ Kernel.input_of_mem_builtin hkernel) f.rate

variable (hbounded : ∀ (i : Nat) e, b.stages[i]? = some e →
  e.transform.name = FilterBank.kernel.name → e.transform.inputFormat.points ≤ 2 ^ 24)
include hbounded

/-- If the steps that read the source read one kind, the pipeline is as good as one that was built
for blank collections of this kind. -/
theorem Schedules.sound_withSource {kind : Kind} (hreads : p.SourceReads kind) :
    (p.withSource (.blank kind f.rate)).Sound := by
  intro k s hs
  cases hi : s.input with
  | none =>
    refine ⟨.blank kind f.rate, b.sourceCount, ?_, fun input hinput => ?_⟩
    · simp [Pipeline.feedOf?, hi, Pipeline.withSource, h.sourceCount_eq]
    · rw [← hreads.input_eq (List.mem_of_getElem? hs) hi] at hinput
      exact h.exists_execute_blank hb hr hs hsource hbounded hi hinput
  | some j =>
    obtain ⟨x, e, hx, he, hprepare, -, -, hplace⟩ := h.stage k s hs
    obtain ⟨fresh, format, count, n, warnings, hcreate, hparent, haccept⟩ := hb.accepts x.1 e he
    have hfeed := h.feedOf?_eq hplace hparent
    unfold Pipeline.feedOf? at hfeed
    rw [hi] at hfeed
    obtain ⟨u, hu, hpair⟩ := Option.map_eq_some_iff.1 hfeed
    cases hpair
    obtain ⟨hukernel, -⟩ := h.exists_accepted hb hr hu
    have hne : u.transform.outputFormat.kind ≠ .identity :=
      (Kernel.reliable_of_mem_builtin hukernel).output_ne
    refine ⟨_, _, ?_, fun input hinput => Transform.exists_execute
      (fun k hk => Kernel.reliable_of_mem_builtin (hr k hk)) hcreate haccept hprepare hne
      (hbounded x.1 e he) hinput⟩
    simp [Pipeline.feedOf?, hi, Pipeline.withSource, hu]

variable (hcheck : p.checkSource batch = .ok ()) (hshape : batch.WellShaped)
include hcheck hshape

theorem Schedules.exists_features (hreads : p.SourceReads batch.kind) :
    ∃ features, (p.run batch).answer = .ok features := by
  obtain ⟨r, hrun⟩ : ∃ r, p.runSteps batch p.start 0 p.steps = .ok r := by
    cases hsteps : p.steps with
    | nil => exact ⟨_, rfl⟩
    | cons s steps =>
      have hs : p.steps[0]? = some s := by rw [hsteps]; rfl
      have hi : s.input = none :=
        Step.inputNode_eq_zero_iff.1 (Nat.le_zero.1 (h.scheduled.inputNode_le hs))
      have hconforms := h.conforms_blank hb hr hsource hcheck hshape hs
        (hreads.input_eq (List.mem_of_getElem? hs) hi)
      have hsound := h.sound_withSource hb hr hsource hbounded hreads
      obtain ⟨r, hrun⟩ := hsound.exists_runSteps (h.scheduled.withSource _)
        (h.sourceCount_eq ▸ hconforms) p.steps.length
      rw [Pipeline.runSteps_withSource] at hrun
      refine ⟨r, ?_⟩
      rw [← hsteps, ← List.take_length (l := p.steps)]
      exact hrun
  unfold Pipeline.run
  rw [hcheck]
  dsimp only
  rw [hrun]
  exact ⟨_, rfl⟩

/-- The steps that read the source come first, and the first of them that reads another kind ends
the run. -/
theorem Schedules.exists_mismatch (hreads : ¬ p.SourceReads batch.kind) :
    ∃ s ∈ p.steps, s.Refuses batch.kind ∧
      (p.run batch).answer = .error (.mismatch s.transform.kernel.input.id batch.id) := by
  obtain ⟨s, hfind⟩ : ∃ s, p.steps.find? (fun s => s.Refuses batch.kind) = some s := by
    rw [← Option.isSome_iff_exists, List.find?_isSome]
    by_contra hnone
    exact hreads fun s hmem hrefuses => hnone ⟨s, hmem, decide_eq_true hrefuses⟩
  obtain ⟨hrefuses, before, after, hsteps, hbefore⟩ := List.find?_eq_some_iff_append.1 hfind
  obtain ⟨hi, hne⟩ := of_decide_eq_true hrefuses
  have hs : p.steps[before.length]? = some s := by
    rw [hsteps, List.getElem?_append_right (Nat.le_refl _), Nat.sub_self]
    rfl
  refine ⟨s, List.mem_of_getElem? hs, ⟨hi, hne⟩, ?_⟩
  obtain ⟨hkernel, -⟩ := h.exists_accepted hb hr hs
  obtain ⟨x, e, -, -, hprepare, -⟩ := h.stage _ s hs
  have hfail := Transform.execute_of_kind_ne hprepare
    (Kernel.input_ne_identity_of_mem_builtin hkernel) (Ne.symm hne) s.transform.freshOutputs
  have hexecute (t : Step) (ht : t ∈ before) : t.input = none ∧
      ∃ x, t.transform.execute batch t.transform.freshOutputs = .ok x := by
    obtain ⟨j, hj, rfl⟩ := List.mem_iff_getElem.1 ht
    have htj : p.steps[j]? = some before[j] := by
      rw [hsteps, List.getElem?_append_left hj, List.getElem?_eq_getElem hj]
    have hti : before[j].input = none := by
      have hle := h.scheduled.sorted j _ _ s (Nat.le_of_lt hj) htj hs
      rw [Step.inputNode_eq_zero_iff.2 hi] at hle
      exact Step.inputNode_eq_zero_iff.1 (Nat.le_zero.1 hle)
    have hkind : before[j].transform.kernel.input = batch.kind := by
      have hnot := hbefore _ ht
      simpa [Step.Refuses, hti] using hnot
    have hconforms := h.conforms_blank hb hr hsource hcheck hshape htj hkind
    obtain ⟨x, hx, -⟩ := h.exists_execute_blank hb hr htj hsource hbounded hti (hkind ▸ hconforms)
    exact ⟨hti, x, hx⟩
  obtain ⟨warnings, hrun⟩ := Pipeline.runSteps_of_failure (p := p) (r := p.start) after 0 hexecute
    hi hfail
  unfold Pipeline.run
  rw [hcheck]
  dsimp only
  rw [hsteps, hrun]

end Run

/-- A pipeline for a source of any kind does not refuse a collection that passes the check of its
run if every step that reads the source reads collections of this kind. If the collection is well
shaped, the run answers if and only if this is so, and otherwise a step that reads the source
refuses the collection for its kind. -/
theorem run_of_wildcard (f : Format .identity) (count : Nat) (calls : List Call) (config : Config)
    (available : Nat) (write : (path text : String) → Except Error Unit) (p : Pipeline)
    (hbuild : ((fresh .builtin ⟨.identity, f⟩ count).after calls).build config available write =
      .ok p)
    (batch : AnyBuffers) (hcheck : p.checkSource batch = .ok ()) :
    (p.SourceReads batch.kind →
      ∀ expected found, (p.run batch).answer ≠ .error (.formatMismatch expected found)) ∧
    (batch.WellShaped →
      (∀ (i : Nat) e, ((fresh .builtin ⟨.identity, f⟩ count).after calls).stages[i]? = some e →
        e.transform.name = FilterBank.kernel.name → e.transform.inputFormat.points ≤ 2 ^ 24) →
      ((∃ features, (p.run batch).answer = .ok features) ↔ p.SourceReads batch.kind) ∧
      ∀ e, (p.run batch).answer = .error e → ∃ s ∈ p.steps, s.Refuses batch.kind ∧
        e = .mismatch s.transform.kernel.input.id batch.id) := by
  have hb := wellFormed_after .builtin ⟨.identity, f⟩ count calls
  have hkeeps := (extends_after (fresh .builtin ⟨.identity, f⟩ count) calls).keeps
  obtain ⟨order, hp⟩ := schedules_of_build hb hbuild
  generalize (fresh .builtin ⟨.identity, f⟩ count).after calls = b at hb hkeeps hp
  have hr : ∀ k ∈ b.registry.kernels, k ∈ builtinKernels := fun k hk => by
    rwa [hkeeps.registry] at hk
  have hsource : b.source = ⟨.identity, f⟩ := hkeeps.source
  refine ⟨fun hreads => hp.ne_formatMismatch hb hr hreads hcheck, fun hshape hbounded => ?_⟩
  by_cases hreads : p.SourceReads batch.kind
  · obtain ⟨features, hrun⟩ := hp.exists_features hb hr hsource hbounded hcheck hshape hreads
    refine ⟨iff_of_true ⟨features, hrun⟩ hreads, fun e he => ?_⟩
    rw [hrun] at he
    cases he
  · obtain ⟨s, hs, hrefuses, hrun⟩ := hp.exists_mismatch hb hr hsource hbounded hcheck hshape hreads
    refine ⟨iff_of_false ?_ hreads, fun e he => ⟨s, hs, hrefuses, ?_⟩⟩
    · rintro ⟨features, hok⟩
      rw [hrun] at hok
      cases hok
    · rw [hrun] at he
      cases he
      rfl

def convertedFromAny : Builder :=
  (fresh .builtin ⟨.identity, ⟨(), some .wideband⟩⟩ 1).after
    [.addFeature "samples" [⟨"Int16ToFloat", .empty⟩]]

def blankOf (kind : Kind) : AnyBuffers := ⟨kind, .fresh (.initial kind) 1⟩

theorem wellShaped_blankOf (kind : Kind) : (blankOf kind).WellShaped := by
  intro x hx
  have hx' := (Array.mem_replicate.1 hx).2
  rw [hx']
  exact Format.fits_newElement _

/-- An empty array of whole numbers is converted. -/
theorem run_convertedFromAny : ∃ p features,
    convertedFromAny.build {} 1 (fun _ _ => .ok ()) = .ok p ∧
      p.checkSource (blankOf (.array .int16)) = .ok () ∧ p.SourceReads (.array .int16) ∧
        (p.run (blankOf (.array .int16))).answer = .ok features := by
  have hbuilt : (convertedFromAny.build {} 1 (fun _ _ => .ok ())).toOption.map (fun p =>
      ((p.checkSource (blankOf (.array .int16))).isOk, p.steps.map (·.transform.kernel.input))) =
        some (true, [.array .int16]) := by cbv
  have hnames : convertedFromAny.stages.toList.map (fun e => e.transform.name) =
      ["Int16ToFloat"] := by cbv
  cases hp : convertedFromAny.build {} 1 (fun _ _ => .ok ()) with
  | error e => simp [hp, Except.toOption] at hbuilt
  | ok p =>
    simp only [hp, Except.toOption, Option.map_some, Option.some.injEq, Prod.mk.injEq] at hbuilt
    obtain ⟨hisOk, hkinds⟩ := hbuilt
    have hcheck := eq_ok_of_isOk hisOk
    have hreads : p.SourceReads (.array .int16) := by
      intro s hs hrefuses
      have hmem := List.mem_map_of_mem (f := fun s : Step => s.transform.kernel.input) hs
      rw [hkinds, List.mem_singleton] at hmem
      exact hrefuses.2 hmem
    obtain ⟨features, hrun⟩ := ((run_of_wildcard _ _ _ _ _ _ p hp _ hcheck).2
      (wellShaped_blankOf _) (bounded_of_names (hnames ▸ by decide))).1.2 hreads
    exact ⟨p, features, rfl, hcheck, hreads, hrun⟩

/-- Elements that hold nothing, and empty arrays of other samples, pass the check and are refused by
the stage that converts. -/
theorem run_convertedFromAny_of_other : ∃ p,
    convertedFromAny.build {} 1 (fun _ _ => .ok ()) = .ok p ∧
      p.checkSource (blankOf .identity) = .ok () ∧
      (p.run (blankOf .identity)).answer =
        .error (.formatMismatch "ArrayFormat<i16>" "identity") ∧
      p.checkSource (blankOf Signal) = .ok () ∧
      (p.run (blankOf Signal)).answer =
        .error (.formatMismatch "ArrayFormat<i16>" "ArrayFormat<f32>") := by
  have hbuilt : (convertedFromAny.build {} 1 (fun _ _ => .ok ())).toOption.map (fun p =>
      ((p.checkSource (blankOf .identity)).isOk,
        (p.run (blankOf .identity)).answer.map fun _ => (),
        (p.checkSource (blankOf Signal)).isOk, (p.run (blankOf Signal)).answer.map fun _ => ())) =
      some (true, .error (.formatMismatch "ArrayFormat<i16>" "identity"), true,
        .error (.formatMismatch "ArrayFormat<i16>" "ArrayFormat<f32>")) := by cbv
  cases hp : convertedFromAny.build {} 1 (fun _ _ => .ok ()) with
  | error e => simp [hp, Except.toOption] at hbuilt
  | ok p =>
    simp only [hp, Except.toOption, Option.map_some, Option.some.injEq, Prod.mk.injEq] at hbuilt
    obtain ⟨hcheck, hrun, hcheck', hrun'⟩ := hbuilt
    exact ⟨p, rfl, eq_ok_of_isOk hcheck, eq_error_of_map hrun, eq_ok_of_isOk hcheck',
      eq_error_of_map hrun'⟩

end Builder

end Timbre
