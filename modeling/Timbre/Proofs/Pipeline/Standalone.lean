import Timbre.Proofs.Pipeline.Results
import Timbre.Proofs.Pipeline.Soundness
import Timbre.Proofs.Stage

/-! # Chains on their own

A chain of links can be run without any pipeline: each stage is created, takes the format and the
number of elements from before, is prepared, and works into fresh outputs. A run of a pipeline
writes for every stage what the links from the source to the stage write on their own.
-/
namespace Timbre

/-- A collection between two stages, with the format and the number of elements that the next one is
told. -/
structure Feed where
  format : AnyFormat
  count : Nat
  buffers : AnyBuffers

namespace Registry

def runLink (r : Registry) (workers : Nat) (x : Feed) (link : Link) : Except Error Feed :=
  match r.create link.name link.params with
  | .error e => .error e
  | .ok fresh =>
    let o := fresh.accept x.format x.count
    match o.answer with
    | .error e => .error e
    | .ok _ =>
      match o.state.prepare workers with
      | .error e => .error e
      | .ok t =>
        match t.execute x.buffers t.freshOutputs with
        | .error e => .error e
        | .ok y => .ok ⟨t.outputFormat, t.outputCount, y.outputs⟩

def runChain (r : Registry) (workers : Nat) : Feed → List Link → Except Error Feed
  | x, [] => .ok x
  | x, link :: links =>
    match r.runLink workers x link with
    | .error e => .error e
    | .ok y => r.runChain workers y links

variable {r : Registry} {workers : Nat}

theorem runChain_append {x y : Feed} {links links' : List Link}
    (h : r.runChain workers x links = .ok y) :
    r.runChain workers x (links ++ links') = r.runChain workers y links' := by
  induction links generalizing x with
  | nil =>
    cases h
    rfl
  | cons link links ih =>
    rw [runChain] at h
    rw [List.cons_append, runChain]
    cases hlink : r.runLink workers x link with
    | error e =>
      rw [hlink] at h
      cases h
    | ok z =>
      rw [hlink] at h
      exact ih h

theorem runLink_of_steady (hr : ∀ k ∈ r.kernels, k.Steady) {x y : Feed} {link : Link}
    (h : r.runLink workers x link = .ok y) (workers' : Nat) :
    r.runLink workers' x link = .ok y := by
  unfold runLink at h ⊢
  cases hcreate : r.create link.name link.params with
  | error e =>
    rw [hcreate] at h
    cases h
  | ok fresh =>
    have hsteady : (fresh.accept x.format x.count).state.kernel.Steady := by
      obtain ⟨k, hk, settings, rfl⟩ := create_eq_ok hcreate
      exact hr k hk
    rw [hcreate] at h
    dsimp only at h ⊢
    split at h
    · cases h
    · rename_i n hn
      split at h
      · cases h
      · rename_i t ht
        split at h
        · cases h
        · rename_i z hz
          cases h
          obtain ⟨u, y, hu, hy, houtputs⟩ :=
            Transform.exists_execute_of_steady hsteady ht hz workers'
          obtain ⟨hformat, hcount⟩ := Transform.outputFormat_of_prepare ht
          obtain ⟨hformat', hcount'⟩ := Transform.outputFormat_of_prepare hu
          rw [hu]
          dsimp only
          rw [hy]
          dsimp only
          rw [houtputs, hformat, hcount, hformat', hcount']

theorem runChain_of_steady (hr : ∀ k ∈ r.kernels, k.Steady) {x y : Feed} {links : List Link}
    (h : r.runChain workers x links = .ok y) (workers' : Nat) :
    r.runChain workers' x links = .ok y := by
  induction links generalizing x with
  | nil => exact h
  | cons link links ih =>
    rw [runChain] at h ⊢
    cases hlink : r.runLink workers x link with
    | error e =>
      rw [hlink] at h
      cases h
    | ok z =>
      rw [hlink] at h
      rw [runLink_of_steady hr hlink workers']
      exact ih h

theorem runChain_singleton (x : Feed) (link : Link) :
    r.runChain workers x [link] = r.runLink workers x link := by
  rw [runChain]
  cases r.runLink workers x link <;> rfl

end Registry

namespace Builder

variable {b : Builder} {p : Pipeline} {order : List (Nat × Nat)} {source : AnyBuffers}
  {outs : List AnyBuffers}

theorem Schedules.runLink_step (h : b.Schedules p order) (hb : b.WellFormed) {k : Nat} {s : Step}
    {x : Nat × Nat} {e : Entry} {input : AnyBuffers} {y : Transform.Execution}
    {format : AnyFormat} {count : Nat}
    (hx : order[k]? = some x) (hs : p.steps[k]? = some s) (he : b.stages[x.1]? = some e)
    (hparent : b.outputOf e.parent = .ok (format, count))
    (hy : s.transform.execute input s.transform.freshOutputs = .ok y) :
    b.registry.runLink p.workers ⟨format, count, input⟩ e.link =
      .ok ⟨e.transform.outputFormat, e.transform.outputCount, y.outputs⟩ := by
  obtain ⟨x', e', hx', he', hprepare, -⟩ := h.stage k s hs
  rw [hx] at hx'
  cases hx'
  rw [he] at he'
  cases he'
  obtain ⟨fresh, format', count', n, warnings, hcreate, hparent', haccept⟩ := hb.accepts x.1 e he
  rw [hparent] at hparent'
  cases hparent'
  obtain ⟨hformat, hcount⟩ := Transform.outputFormat_of_prepare hprepare
  simp only [Registry.runLink, hcreate, haccept, hprepare, hy, hformat, hcount]

theorem Schedules.exists_execute (h : b.Schedules p order) (hb : b.WellFormed) {k : Nat} {s : Step}
    {x : Nat × Nat} {e : Entry} {input : AnyBuffers} {y : Feed} {format : AnyFormat} {count : Nat}
    (hx : order[k]? = some x) (hs : p.steps[k]? = some s) (he : b.stages[x.1]? = some e)
    (hparent : b.outputOf e.parent = .ok (format, count))
    (hy : b.registry.runLink p.workers ⟨format, count, input⟩ e.link = .ok y) :
    ∃ z, s.transform.execute input s.transform.freshOutputs = .ok z := by
  obtain ⟨x', e', hx', he', hprepare, -⟩ := h.stage k s hs
  rw [hx] at hx'
  cases hx'
  rw [he] at he'
  cases he'
  obtain ⟨fresh, format', count', n, warnings, hcreate, hparent', haccept⟩ := hb.accepts x.1 e he
  rw [hparent] at hparent'
  cases hparent'
  simp only [Registry.runLink, hcreate, haccept, hprepare] at hy
  split at hy
  · cases hy
  · rename_i z hz
    exact ⟨z, hz⟩

/-- What a step reads is what the links to the parent of its stage make of the source, if all that
is written before is what the links of its stage make of the source. -/
theorem Schedules.runChain_readFrom (h : b.Schedules p order) {k : Nat} {s : Step} {x : Nat × Nat}
    {e : Entry} {input : AnyBuffers} (hx : order[k]? = some x) (hs : p.steps[k]? = some s)
    (he : b.stages[x.1]? = some e) (hread : Pipeline.readFrom source outs s = some input)
    (hbefore : ∀ (j : Nat) z out, j < k → order[j]? = some z → outs[j]? = some out →
      ∃ links e, b.Path (.stage z.1) links ∧ b.stages[z.1]? = some e ∧
        b.registry.runChain p.workers ⟨b.source, b.sourceCount, source⟩ links =
          .ok ⟨e.transform.outputFormat, e.transform.outputCount, out⟩) :
    ∃ links format count, b.Path e.parent links ∧ b.outputOf e.parent = .ok (format, count) ∧
      b.registry.runChain p.workers ⟨b.source, b.sourceCount, source⟩ links =
        .ok ⟨format, count, input⟩ := by
  obtain ⟨s', e', hs', he', -, -, hplace⟩ := h.step_of_order hx
  rw [hs] at hs'
  cases hs'
  rw [he] at he'
  cases he'
  cases hi : s.input with
  | none =>
    rw [Step.inputNode_eq_zero_iff.2 hi] at hplace
    have hparent : e.parent = .source := (Option.some_inj.1 hplace).symm
    simp only [Pipeline.readFrom, hi, Option.some_inj] at hread
    subst hread
    rw [hparent]
    exact ⟨[], _, _, .source, rfl, rfl⟩
  | some j =>
    have hle := h.scheduled.inputNode_le hs
    rw [Step.inputNode_eq_succ_iff.2 hi] at hle hplace
    obtain ⟨z, hz, hparent⟩ : ∃ z, order[j]? = some z ∧ e.parent = .stage z.1 := by
      simp only [places, List.getElem?_cons_succ, List.getElem?_map] at hplace
      obtain ⟨z, hz, hze⟩ := Option.map_eq_some_iff.1 hplace
      exact ⟨z, hz, hze.symm⟩
    simp only [Pipeline.readFrom, hi] at hread
    obtain ⟨links, e', hpath, he', hrun⟩ := hbefore j z input hle hz hread
    rw [hparent]
    exact ⟨links, _, _, hpath, outputOf_stage he', hrun⟩

/-- What a run writes for a stage is what the links of its path make of the source. -/
theorem Schedules.runChain_path (h : b.Schedules p order) (hb : b.WellFormed)
    (hw : p.Wrote source outs) {k : Nat} {x : Nat × Nat} {out : AnyBuffers}
    (hx : order[k]? = some x) (hout : outs[k]? = some out) :
    ∃ links e, b.Path (.stage x.1) links ∧ b.stages[x.1]? = some e ∧
      b.registry.runChain p.workers ⟨b.source, b.sourceCount, source⟩ links =
        .ok ⟨e.transform.outputFormat, e.transform.outputCount, out⟩ := by
  induction k using Nat.strongRecOn generalizing x out with
  | ind k ih =>
    obtain ⟨s, input, y, hs, hread, hy, rfl⟩ := hw.getElem? hout
    obtain ⟨s', e, hs', he, -⟩ := h.step_of_order hx
    rw [hs] at hs'
    cases hs'
    obtain ⟨links, format, count, hpath, hparent, hrun⟩ :=
      h.runChain_readFrom hx hs he hread fun j z out hj hz hout => ih j hj hz hout
    refine ⟨links ++ [e.link], e, .stage he hpath, he, ?_⟩
    rw [Registry.runChain_append hrun, Registry.runChain_singleton]
    exact h.runLink_step hb hx hs he hparent hy

theorem exists_reached_of_run (hp : p.Scheduled) {features : Features}
    (h : (p.run source).answer = .ok features) : ∃ outs r, outs.length = p.steps.length ∧
      p.Reached source outs r ∧ features = p.collect r := by
  unfold Pipeline.run at h
  split at h
  · cases h
  · split at h
    · cases h
    · rename_i r hrun
      cases h
      obtain ⟨outs, hlen, hr⟩ := hp.reached_of_take (Nat.le_refl _) (by rwa [List.take_length])
      exact ⟨outs, r, hlen, hr, rfl⟩

theorem Schedules.run_ok_iff (h : b.Schedules p order) (hb : b.WellFormed) (source : AnyBuffers) :
    (∃ features, (p.run source).answer = .ok features) ↔ p.checkSource source = .ok () ∧
      ∀ i links, i < b.size → b.Path (.stage i) links → ∃ y,
        b.registry.runChain p.workers ⟨b.source, b.sourceCount, source⟩ links = .ok y := by
  constructor
  · rintro ⟨features, hrun⟩
    obtain ⟨outs, r, hlen, hr, -⟩ := exists_reached_of_run h.scheduled hrun
    constructor
    · unfold Pipeline.run at hrun
      split at hrun
      · cases hrun
      · assumption
    · intro i links hi hpath
      obtain ⟨k, x, hx, rfl⟩ := h.exists_position hi
      have hk : k < outs.length := by
        rw [hlen, h.length_eq]
        exact (List.getElem?_eq_some_iff.1 hx).1
      obtain ⟨links', e, hpath', -, hchain⟩ :=
        h.runChain_path hb hr.wrote hx (List.getElem?_eq_getElem hk)
      rw [hpath.unique hpath']
      exact ⟨_, hchain⟩
  · rintro ⟨hcheck, hpaths⟩
    have hsteps : p.steps = [] ++ (p.steps ++ []) := by simp
    obtain ⟨r, hr⟩ := (Pipeline.reached_start p source).exists_runSteps h.scheduled hsteps rfl
      fun outs s input hw hs hread => by
        obtain ⟨x, e, hx, he, -⟩ := h.stage _ s hs
        obtain ⟨links, format, count, hpath, hparent, hrun⟩ :=
          h.runChain_readFrom hx hs he hread fun j z out _ hz hout => h.runChain_path hb hw hz hout
        obtain ⟨y, hy⟩ := hpaths x.1 _ (Array.getElem?_eq_some_iff.1 he).1 (.stage he hpath)
        rw [Registry.runChain_append hrun, Registry.runChain_singleton] at hy
        exact h.exists_execute hb hx hs he hparent hy
    rw [List.length_nil] at hr
    unfold Pipeline.run
    rw [hcheck]
    dsimp only
    rw [hr]
    exact ⟨_, rfl⟩

theorem Schedules.features_run (h : b.Schedules p order) (hb : b.WellFormed)
    {names : List (String × StageId)} (hn : b.Named names) {features : Features}
    (hrun : (p.run source).answer = .ok features) :
    features.names.Perm (names.map (·.1)) ∧
      ∀ name id links, (name, id) ∈ names → b.Path id links → ∃ y,
        b.registry.runChain p.workers ⟨b.source, b.sourceCount, source⟩ links = .ok y ∧
          features.find? name = some y.buffers := by
  obtain ⟨outs, r, hlen, hr, rfl⟩ := exists_reached_of_run h.scheduled hrun
  obtain ⟨hnames, hfind⟩ := h.features_collect hn hr hlen
  refine ⟨hnames, fun name id links hname hpath => ?_⟩
  obtain ⟨i, hi, hid⟩ := hn.known _ hname
  obtain ⟨k, x, hx, rfl⟩ := h.exists_position hi
  have hk : k < outs.length := by
    rw [hlen, h.length_eq]
    exact (List.getElem?_eq_some_iff.1 hx).1
  have hout := List.getElem?_eq_getElem hk
  obtain ⟨links', e, hpath', -, hchain⟩ := h.runChain_path hb hr.wrote hx hout
  dsimp only at hid
  subst hid
  rw [hpath.unique hpath']
  exact ⟨_, hchain, hfind name k x _ hname hx hout⟩

section Run

variable {source : AnyFormat} {count : Nat} {calls : List Call} {config : Config} {available : Nat}
  {write : String → String → Except Error Unit} {p : Pipeline} {batch : AnyBuffers}
  {features : Features}

/-- A run answers exactly the features that were exposed, and each is what the links of its stage
make of the source on their own, for any number of workers. -/
theorem features_eq_runChain
    (hbuild : ((fresh .builtin source count).after calls).build config available write = .ok p)
    (hrun : (p.run batch).answer = .ok features) :
    features.names.Perm (((fresh .builtin source count).exposures calls).map (·.1)) ∧
    (∀ name id, (name, id) ∈ (fresh .builtin source count).exposures calls →
      ∃ links, ((fresh .builtin source count).after calls).Path id links ∧
        ∀ workers, ∃ y, Registry.builtin.runChain workers ⟨source, count, batch⟩ links = .ok y ∧
          features.find? name = some y.buffers) ∧
    ∀ before name chain rest id, calls = before ++ .addFeature name chain :: rest →
      (((fresh .builtin source count).after before).addFeature name chain).answer = .ok id →
        ∀ workers, ∃ y, Registry.builtin.runChain workers ⟨source, count, batch⟩ chain = .ok y ∧
          features.find? name = some y.buffers := by
  have hb := wellFormed_after .builtin source count calls
  have hn := named_after .builtin source count calls
  have hkeeps := (extends_after (fresh .builtin source count) calls).keeps
  obtain ⟨order, hp⟩ := schedules_of_build hb hbuild
  obtain ⟨hnames, hfind⟩ := hp.features_run hb hn hrun
  have hstandalone (name : String) (id : StageId) (links : List Link) (workers : Nat)
      (hname : (name, id) ∈ (fresh .builtin source count).exposures calls)
      (hpath : ((fresh .builtin source count).after calls).Path id links) :
      ∃ y, Registry.builtin.runChain workers ⟨source, count, batch⟩ links = .ok y ∧
        features.find? name = some y.buffers := by
    obtain ⟨y, hy, hbuffers⟩ := hfind name id links hname hpath
    rw [hkeeps.registry, hkeeps.source, hkeeps.sourceCount] at hy
    exact ⟨y, Registry.runChain_of_steady (fun k hk => Kernel.steady_of_mem_builtin hk) hy workers,
      hbuffers⟩
  refine ⟨hnames, fun name id hname => ?_, fun before name chain rest id hcalls hid workers => ?_⟩
  · obtain ⟨i, hi, rfl⟩ : ∃ i < ((fresh .builtin source count).after calls).size, id = .stage i :=
      hn.known _ hname
    obtain ⟨links, hpath⟩ := hb.exists_path hi
    exact ⟨links, hpath, fun workers => hstandalone name _ links workers hname hpath⟩
  · subst hcalls
    have hbefore := wellFormed_after .builtin source count before
    obtain ⟨hmem, hpath⟩ := path_of_addFeature hbefore hid rest
    rw [← after_append] at hpath
    exact hstandalone name id chain workers
      (exposures_append _ before _ ▸ List.mem_append_right _ hmem) hpath

end Run

def convertedAndMeasured : Builder :=
  (fresh .builtin ⟨.array .int16, ⟨(2 : Nat), some .wideband⟩⟩ 1).after
    [.addFeature "signal" [⟨"Int16ToFloat", .empty⟩],
      .addFeature "energy" [⟨"Int16ToFloat", .empty⟩, ⟨"Intensity", .empty⟩]]

/-- The energy is what its two links make of a signal with any number of workers. -/
theorem energy_eq_runChain : ∃ p features y,
    convertedAndMeasured.build {} 1 (fun _ _ => .ok ()) = .ok p ∧
      (p.run (silence 2 1)).answer = .ok features ∧
        Registry.builtin.runChain 8
          ⟨⟨.array .int16, ⟨(2 : Nat), some .wideband⟩⟩, 1, silence 2 1⟩
          [⟨"Int16ToFloat", .empty⟩, ⟨"Intensity", .empty⟩] = .ok y ∧
        features.find? "energy" = some y.buffers := by
  have hbuilt : (convertedAndMeasured.build {} 1 (fun _ _ => .ok ())).toOption.isSome = true := by
    cbv
  have hnames : convertedAndMeasured.stages.toList.map (fun e => e.transform.name) =
      ["Int16ToFloat", "Intensity"] := by cbv
  have hadd : (((fresh .builtin ⟨.array .int16, ⟨(2 : Nat), some .wideband⟩⟩
      1).after [.addFeature "signal" [⟨"Int16ToFloat", .empty⟩]]).addFeature "energy"
        [⟨"Int16ToFloat", .empty⟩, ⟨"Intensity", .empty⟩]).answer = .ok (.stage 1) := by cbv
  cases hp : convertedAndMeasured.build {} 1 (fun _ _ => .ok ()) with
  | error e => simp [hp, Except.toOption] at hbuilt
  | ok p =>
    have hkind : Kind.array .int16 ≠ .identity := fun h => by cases h
    obtain ⟨hsound, hsource, hcount, order, hs⟩ := sound_of_build (fun k hk => .inl hk) hkind
      (bounded_of_names (hnames ▸ by decide)) hp
    have hsuits : (silence 2 1).Suits p.source p.sourceCount := by
      rw [hsource, hcount]
      exact ⟨_, rfl, rfl, rfl, by decide⟩
    obtain ⟨features, hrun⟩ := (hsound.run_ok_iff hs.scheduled (hsource ▸ hkind) _).2 hsuits
    obtain ⟨-, -, hfeature⟩ := features_eq_runChain hp hrun
    obtain ⟨y, hy, hbuffers⟩ := hfeature [_] "energy" _ [] _ rfl hadd 8
    exact ⟨p, features, y, rfl, hrun, hy, hbuffers⟩

end Builder

end Timbre
