import Mathlib.Algebra.Module.Submodule.Lattice
import Mathlib.Data.List.Permutation
import Timbre.Proofs.Pipeline.History
import Timbre.Proofs.Pipeline.Release
import Timbre.Proofs.Stage

/-! # Pipelines that do not go wrong

Every format is checked when a pipeline is assembled, and once more when a source collection
arrives. After that no stage fails: what a stage has accepted is what the stage before it writes.
The first two imports hold the equations of `≤` and `Prod.snd` with which `cbv` evaluates a closed
pipeline.
-/
namespace Timbre

/-- The errors of the checks that a source collection goes through. -/
inductive Error.OfSource : Error → Prop
  | formatMismatch (expected found : String) : OfSource (.formatMismatch expected found)
  | invalidFormat (format : String) (refusal : Refusal) : OfSource (.invalidFormat format refusal)
  | bufferCountMismatch (expected found : Nat) : OfSource (.bufferCountMismatch expected found)
  | invalidBuffer (format : String) (index : Nat) (flaw : Flaw) :
    OfSource (.invalidBuffer format index flaw)

namespace Format

variable {k : Kind}

theorem validate_eq (hk : k ≠ .identity) (f : Format k) (b : AnyBuffers) :
    f.validate b = match f.downcast b with
      | .error e => .error e
      | .ok c =>
        match f.firstFlaw? c.elements.toList with
        | some (index, flaw) => .error (.invalidBuffer f.describe index flaw)
        | none => .ok () := by
  cases k with
  | array s => rfl
  | single s => rfl
  | identity => exact absurd rfl hk

theorem firstFlaw?_eq_none_iff (f : Format k) (elements : List k.Element) :
    f.firstFlaw? elements = none ↔ ∀ x ∈ elements, f.flaw? x = none := by
  rw [firstFlaw?, List.findSome?_eq_none_iff]
  simp only [Option.map_eq_none_iff]
  constructor
  · intro h x hx
    obtain ⟨i, hi, rfl⟩ := List.mem_iff_getElem.1 hx
    exact h (elements[i], i) (List.mem_zipIdx_iff_getElem?.2 (List.getElem?_eq_getElem hi))
  · intro h y hy
    exact h y.1 (List.mem_of_getElem? (List.mem_zipIdx_iff_getElem?.1 hy))

theorem downcast_eq_ok {f : Format k} {b : AnyBuffers} {c : Buffers k} (h : f.downcast b = .ok c) :
    b = ⟨k, c⟩ := by
  unfold downcast at h
  split at h
  · split at h
    · rename_i hc
      cases h
      exact AnyBuffers.as?_eq_some_iff.1 hc
    · cases h
  · cases h

theorem ofSource_of_downcast {f : Format k} {b : AnyBuffers} {e : Error}
    (h : f.downcast b = .error e) : e.OfSource := by
  unfold downcast at h
  split at h
  · split at h
    · cases h
    · cases h
      exact .formatMismatch _ _
  · cases h
    exact .formatMismatch _ _

theorem ofSource_of_validate {f : Format k} {b : AnyBuffers} {e : Error}
    (h : f.validate b = .error e) : e.OfSource := by
  by_cases hk : k = .identity
  · subst hk
    cases h
  · rw [validate_eq hk] at h
    split at h
    · rename_i hdowncast
      cases h
      exact ofSource_of_downcast hdowncast
    · split at h
      · cases h
        exact .invalidBuffer _ _ _
      · cases h

end Format

namespace Pipeline

variable {p : Pipeline} {source : AnyBuffers}

theorem checkSource_eq_ok_iff (hp : p.source.kind ≠ .identity) :
    p.checkSource source = .ok () ↔ source.Suits p.source p.sourceCount := by
  unfold checkSource AnyBuffers.Suits
  constructor
  · intro h
    split at h
    · cases h
    · split at h
      · cases h
      · rename_i hbytes
        split at h
        · cases h
        · rename_i hcount
          rw [Format.validate_eq hp] at h
          split at h
          · cases h
          · rename_i c hc
            have hsource := Format.downcast_eq_ok hc
            subst hsource
            split at h
            · cases h
            · rename_i hflaw
              refine ⟨c, rfl, not_not.1 hbytes, not_not.1 hcount, fun x hx => ?_⟩
              exact (Format.firstFlaw?_eq_none_iff _ _).1 hflaw x (Array.mem_toList_iff.2 hx)
  · rintro ⟨c, rfl, hbytes, hcount, hflaw⟩
    have hsame : p.source.id.sameAs (AnyBuffers.id ⟨p.source.kind, c⟩) = true :=
      FormatId.sameAs_self _
    have hcount' : AnyBuffers.count ⟨p.source.kind, c⟩ = p.sourceCount := hcount
    have hnone : p.source.format.firstFlaw? c.elements.toList = none :=
      (Format.firstFlaw?_eq_none_iff _ _).2 fun x hx => hflaw x (Array.mem_toList_iff.1 hx)
    rw [hsame, if_neg (not_not.2 hbytes), if_neg (not_not.2 hcount'), Format.validate_eq hp,
      Format.downcast_mk]
    simp [hnone]

theorem ofSource_of_checkSource {e : Error} (h : p.checkSource source = .error e) : e.OfSource := by
  unfold checkSource at h
  split at h
  · cases h
    exact .formatMismatch _ _
  · split at h
    · cases h
      exact .invalidFormat _ _
    · split at h
      · cases h
        exact .bufferCountMismatch _ _
      · exact Format.ofSource_of_validate h

/-- The format and the number of elements that a step has been told to read. -/
def feedOf? (p : Pipeline) (s : Step) : Option (AnyFormat × Nat) :=
  match s.input with
  | none => some (p.source, p.sourceCount)
  | some position =>
    p.steps[position]?.map fun t => (t.transform.outputFormat, t.transform.outputCount)

/-- The collection has exactly the output format of a step, and conforms to it. -/
def OutputOf (s : Step) (out : AnyBuffers) : Prop :=
  out.format = s.transform.outputFormat ∧
    out.Conforms s.transform.outputFormat s.transform.outputCount

/-- Every step executes on whatever conforms to what it has been told. -/
def Sound (p : Pipeline) : Prop :=
  ∀ (k : Nat) s, p.steps[k]? = some s → ∃ format count, p.feedOf? s = some (format, count) ∧
    ∀ input : AnyBuffers, input.Conforms format count →
      ∃ x, s.transform.execute input s.transform.freshOutputs = .ok x ∧ OutputOf s x.outputs

section Sound

variable {outs : List AnyBuffers} {s : Step} {input : AnyBuffers}

theorem conforms_of_readFrom (hsource : source.Conforms p.source p.sourceCount)
    (hall : ∀ (k : Nat) out t, outs[k]? = some out → p.steps[k]? = some t → OutputOf t out)
    (hread : readFrom source outs s = some input) {format : AnyFormat} {count : Nat}
    (hfeed : p.feedOf? s = some (format, count)) : input.Conforms format count := by
  unfold readFrom at hread
  unfold feedOf? at hfeed
  cases hi : s.input with
  | none =>
    rw [hi] at hread hfeed
    cases hread
    cases hfeed
    exact hsource
  | some j =>
    rw [hi] at hread hfeed
    obtain ⟨t, ht, hpair⟩ := Option.map_eq_some_iff.1 hfeed
    cases hpair
    exact (hall j input t hread ht).2

theorem Sound.exists_execute (h : p.Sound) (hsource : source.Conforms p.source p.sourceCount)
    (hall : ∀ (k : Nat) out t, outs[k]? = some out → p.steps[k]? = some t → OutputOf t out)
    {k : Nat} (hs : p.steps[k]? = some s) (hread : readFrom source outs s = some input) :
    ∃ x, s.transform.execute input s.transform.freshOutputs = .ok x ∧ OutputOf s x.outputs := by
  obtain ⟨format, count, hfeed, hexecute⟩ := h k s hs
  exact hexecute input (conforms_of_readFrom hsource hall hread hfeed)

theorem Sound.outputOf (h : p.Sound) (hsource : source.Conforms p.source p.sourceCount)
    (hw : p.Wrote source outs) :
    ∀ (k : Nat) out t, outs[k]? = some out → p.steps[k]? = some t → OutputOf t out := by
  induction hw with
  | start =>
    intro k out t hout
    cases hout
  | @step outs s input x _ hs hread hx ih =>
    intro k out t hout ht
    obtain ⟨x', hx', houtput⟩ := h.exists_execute hsource ih hs hread
    rw [hx] at hx'
    cases hx'
    rw [List.getElem?_append] at hout
    split at hout
    · exact ih k out t hout ht
    · have hk : k - outs.length = 0 := by
        simpa using (List.getElem?_eq_some_iff.1 hout).1
      have hk' : k = outs.length := by omega
      rw [hk] at hout
      cases hout
      rw [hk', hs] at ht
      cases ht
      exact houtput

/-- A run over a collection that conforms to the source format gets through any number of steps. -/
theorem Sound.exists_runSteps (h : p.Sound) (hp : p.Scheduled)
    (hsource : source.Conforms p.source p.sourceCount) (q : Nat) :
    ∃ r, p.runSteps source p.start 0 (p.steps.take q) = .ok r := by
  have hsteps : p.steps = [] ++ (p.steps.take q ++ p.steps.drop q) := by simp
  refine (reached_start p source).exists_runSteps hp hsteps rfl fun outs s input hw hs hread => ?_
  obtain ⟨x, hx, -⟩ := h.exists_execute hsource (h.outputOf hsource hw) hs hread
  exact ⟨x, hx⟩

/-- Step `i` of a run over a collection writes an output: once it is done, the run holds it. -/
def Writes (p : Pipeline) (source : AnyBuffers) (i : Nat) (out : AnyBuffers) : Prop :=
  ∃ r, p.runSteps source p.start 0 (p.steps.take (i + 1)) = .ok r ∧ r.held[i]? = some (some out)

theorem Sound.exists_writes (h : p.Sound) (hp : p.Scheduled)
    (hsource : source.Conforms p.source p.sourceCount) {i : Nat} (hs : p.steps[i]? = some s) :
    ∃ out, p.Writes source i out ∧ OutputOf s out := by
  have hi := (List.getElem?_eq_some_iff.1 hs).1
  obtain ⟨r, hr⟩ := h.exists_runSteps hp hsource (i + 1)
  obtain ⟨outs, hlen, hreached⟩ := hp.reached_of_take hi hr
  have hlt : i < outs.length := by omega
  have hout := List.getElem?_eq_getElem hlt
  refine ⟨outs[i], ⟨r, hr, (hreached.held i _).2 ⟨hout, fun k t hk ht hmem => ?_⟩⟩,
    h.outputOf hsource hreached.wrote i _ s hout hs⟩
  have := hp.lt_of_mem_release ht hmem
  omega

theorem Sound.run_ok_iff (h : p.Sound) (hp : p.Scheduled) (hkind : p.source.kind ≠ .identity)
    (source : AnyBuffers) :
    (∃ features, (p.run source).answer = .ok features) ↔ source.Suits p.source p.sourceCount := by
  rw [← checkSource_eq_ok_iff hkind]
  unfold run
  constructor
  · rintro ⟨features, hfeatures⟩
    split at hfeatures
    · cases hfeatures
    · assumption
  · intro hcheck
    have hsource := ((checkSource_eq_ok_iff hkind).1 hcheck).conforms
    obtain ⟨r, hr⟩ := h.exists_runSteps hp hsource p.steps.length
    rw [List.take_length] at hr
    rw [hcheck]
    dsimp only
    rw [hr]
    exact ⟨_, rfl⟩

theorem Sound.checkSource_of_run (h : p.Sound) (hp : p.Scheduled)
    (hkind : p.source.kind ≠ .identity) {e : Error} (hrun : (p.run source).answer = .error e) :
    p.checkSource source = .error e := by
  cases hcheck : p.checkSource source with
  | error e' =>
    unfold run at hrun
    rw [hcheck] at hrun
    exact congrArg Except.error (Except.error.inj hrun)
  | ok =>
    obtain ⟨features, hfeatures⟩ :=
      (h.run_ok_iff hp hkind source).2 ((checkSource_eq_ok_iff hkind).1 hcheck)
    rw [hrun] at hfeatures
    cases hfeatures

end Sound

end Pipeline

namespace Builder

variable {b : Builder} {p : Pipeline} {order : List (Nat × Nat)}

theorem outputOf_ne_identity (hb : b.WellFormed) (hr : ∀ k ∈ b.registry.kernels, k.Reliable)
    (hsource : b.source.kind ≠ .identity) {id : StageId} {format : AnyFormat} {count : Nat}
    (h : b.outputOf id = .ok (format, count)) : format.kind ≠ .identity := by
  cases id with
  | source =>
    cases h
    exact hsource
  | stage i =>
    cases hi : b.stages[i]? with
    | none => simp [outputOf, entry, hi] at h
    | some e =>
      rw [outputOf_stage hi] at h
      cases h
      obtain ⟨fresh, format, count, n, warnings, hcreate, -, haccept⟩ := hb.accepts i e hi
      exact Transform.outputFormat_ne_identity hr hcreate haccept

theorem Schedules.feedOf?_eq (h : b.Schedules p order) {s : Step} {e : Entry}
    {format : AnyFormat} {count : Nat} (hplace : (places order)[s.inputNode]? = some e.parent)
    (hparent : b.outputOf e.parent = .ok (format, count)) : p.feedOf? s = some (format, count) := by
  unfold Pipeline.feedOf?
  cases hi : s.input with
  | none =>
    rw [Step.inputNode_eq_zero_iff.2 hi] at hplace
    have hsource : e.parent = .source := (Option.some_inj.1 hplace).symm
    rw [hsource] at hparent
    cases hparent
    rw [h.source_eq, h.sourceCount_eq]
  | some j =>
    rw [Step.inputNode_eq_succ_iff.2 hi] at hplace
    simp only [places, List.getElem?_cons_succ, List.getElem?_map] at hplace
    obtain ⟨z, hz, hze⟩ := Option.map_eq_some_iff.1 hplace
    obtain ⟨t, e', ht, he', hprepare, -⟩ := h.step_of_order hz
    obtain ⟨hformat, hcount⟩ := Transform.outputFormat_of_prepare hprepare
    rw [← hze, outputOf_stage he'] at hparent
    cases hparent
    dsimp only
    rw [ht, Option.map_some, hformat, hcount]

theorem Schedules.sound (h : b.Schedules p order) (hb : b.WellFormed)
    (hr : ∀ k ∈ b.registry.kernels, k.Reliable) (hsource : b.source.kind ≠ .identity)
    (hbounded : ∀ (i : Nat) e, b.stages[i]? = some e →
      e.transform.name = FilterBank.kernel.name → e.transform.inputFormat.points ≤ 2 ^ 24) :
    p.Sound := by
  intro k s hs
  obtain ⟨x, e, hx, he, hprepare, -, -, hplace⟩ := h.stage k s hs
  obtain ⟨fresh, format, count, n, warnings, hcreate, hparent, haccept⟩ := hb.accepts x.1 e he
  refine ⟨format, count, h.feedOf?_eq hplace hparent, fun input hinput => ?_⟩
  exact Transform.exists_execute hr hcreate haccept hprepare
    (outputOf_ne_identity hb hr hsource hparent) (hbounded x.1 e he) hinput

theorem bounded_of_names
    (h : FilterBank.kernel.name ∉ b.stages.toList.map fun e => e.transform.name) (i : Nat)
    (e : Entry) (he : b.stages[i]? = some e) (hname : e.transform.name = FilterBank.kernel.name) :
    e.transform.inputFormat.points ≤ 2 ^ 24 :=
  absurd (hname ▸ List.mem_map_of_mem (Array.mem_toList_iff.2 (Array.mem_of_getElem? he))) h

section Build

variable {registry : Registry} {source : AnyFormat} {count : Nat} {calls : List Call}
  {config : Config} {available : Nat} {write : String → String → Except Error Unit}

theorem sound_of_build (hregistry : ∀ k ∈ registry.kernels, k ∈ builtinKernels ∨ k.Wildcard)
    (hsource : source.kind ≠ .identity)
    (hbounded : ∀ (i : Nat) e, ((fresh registry source count).after calls).stages[i]? = some e →
      e.transform.name = FilterBank.kernel.name → e.transform.inputFormat.points ≤ 2 ^ 24)
    (hbuild : ((fresh registry source count).after calls).build config available write = .ok p) :
    p.Sound ∧ p.source = source ∧ p.sourceCount = count ∧
      ∃ order, ((fresh registry source count).after calls).Schedules p order := by
  have hb := wellFormed_after registry source count calls
  have hkeeps := (extends_after (fresh registry source count) calls).keeps
  obtain ⟨order, hp⟩ := schedules_of_build hb hbuild
  refine ⟨hp.sound hb (fun k hk => ?_) (hkeeps.source ▸ hsource) hbounded,
    hp.source_eq.trans hkeeps.source, hp.sourceCount_eq.trans hkeeps.sourceCount, order, hp⟩
  rw [hkeeps.registry] at hk
  exact (hregistry k hk).elim Kernel.reliable_of_mem_builtin Kernel.Wildcard.reliable

/-- A run answers if and only if the collection suits the source format; otherwise it answers with
the error of the source check. When it answers, every stage has written in the format and the number
that were written down when it was added. -/
theorem run_ok_iff_suits (hregistry : ∀ k ∈ registry.kernels, k ∈ builtinKernels ∨ k.Wildcard)
    (hsource : source.kind ≠ .identity)
    (hbounded : ∀ (i : Nat) e, ((fresh registry source count).after calls).stages[i]? = some e →
      e.transform.name = FilterBank.kernel.name → e.transform.inputFormat.points ≤ 2 ^ 24)
    (hbuild : ((fresh registry source count).after calls).build config available write = .ok p)
    (batch : AnyBuffers) :
    ((∃ features, (p.run batch).answer = .ok features) ↔ batch.Suits source count) ∧
    (∀ e, (p.run batch).answer = .error e → p.checkSource batch = .error e ∧ e.OfSource) ∧
    ∀ features, (p.run batch).answer = .ok features → ∀ (i : Nat) e,
      ((fresh registry source count).after calls).stages[i]? = some e →
        ∃ k s m out, p.steps[k]? = some s ∧ p.tree.block? s.node = some m ∧ m.item = i + 1 ∧
          p.Writes batch k out ∧ out.format = e.transform.outputFormat ∧
            out.Conforms e.transform.outputFormat e.transform.outputCount := by
  obtain ⟨hsound, rfl, rfl, order, hp⟩ := sound_of_build hregistry hsource hbounded hbuild
  have hiff := hsound.run_ok_iff hp.scheduled hsource batch
  refine ⟨hiff, fun e he => ?_, fun features hfeatures i e he => ?_⟩
  · have hcheck := hsound.checkSource_of_run hp.scheduled hsource he
    exact ⟨hcheck, Pipeline.ofSource_of_checkSource hcheck⟩
  · obtain ⟨k, x, hx, rfl⟩ := hp.exists_position (Array.getElem?_eq_some_iff.1 he).1
    obtain ⟨s, e', hs, he', hprepare, -⟩ := hp.step_of_order hx
    rw [he] at he'
    cases he'
    obtain ⟨hformat, hcount⟩ := Transform.outputFormat_of_prepare hprepare
    obtain ⟨m, hm, hitem, -⟩ := hp.block k x e hx he
    obtain ⟨out, hwrites, houtput⟩ := hsound.exists_writes hp.scheduled
      (hiff.1 ⟨features, hfeatures⟩).conforms hs
    refine ⟨k, s, m, out, hs, ?_, hitem, hwrites, ?_⟩
    · rw [hp.scheduled.node_eq k s hs, hm]
    · rw [← hformat, ← hcount]
      exact houtput

end Build

def measuredAndCounted : Builder :=
  (fresh ⟨Counting.kernel :: builtinKernels⟩
    ⟨.array .int16, ⟨(4 : Nat), some .wideband⟩⟩ 2).after
    [.addFeature "energy" [⟨"Int16ToFloat", .empty⟩, ⟨"Intensity", .empty⟩],
      .addFeature "buffers" [⟨"Int16ToFloat", .empty⟩, ⟨"Count", .empty⟩]]

def silence (size count : Nat) : AnyBuffers :=
  ⟨.array .int16, .fresh ⟨size, none⟩ count⟩

theorem run_measuredAndCounted : ∃ p, measuredAndCounted.build {} 1 (fun _ _ => .ok ()) = .ok p ∧
    (∃ features, (p.run (silence 4 2)).answer = .ok features) ∧
      ¬ ∃ features, (p.run (silence 4 3)).answer = .ok features := by
  have hbuilt : (measuredAndCounted.build {} 1 (fun _ _ => .ok ())).toOption.isSome = true := by cbv
  have hnames : measuredAndCounted.stages.toList.map (fun e => e.transform.name) =
      ["Int16ToFloat", "Intensity", "Count"] := by cbv
  cases hp : measuredAndCounted.build {} 1 (fun _ _ => .ok ()) with
  | error e => simp [hp, Except.toOption] at hbuilt
  | ok p =>
    have hregistry : ∀ k ∈ Counting.kernel :: builtinKernels, k ∈ builtinKernels ∨ k.Wildcard :=
      fun k hk => (List.mem_cons.1 hk).elim (fun h => .inr (h ▸ Kernel.wildcard_counting)) .inl
    have hkind : Kind.array .int16 ≠ .identity := fun h => by cases h
    have hruns (batch : AnyBuffers) := (run_ok_iff_suits hregistry hkind
      (bounded_of_names (hnames ▸ by decide)) hp batch).1
    refine ⟨p, rfl, (hruns _).2 ⟨_, rfl, rfl, rfl, by decide⟩, fun h => ?_⟩
    obtain ⟨c, hc, -, hcount, -⟩ := (hruns _).1 h
    cases hc
    cases hcount

end Builder

end Timbre
