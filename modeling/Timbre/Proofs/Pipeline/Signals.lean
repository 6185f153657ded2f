import Timbre.Proofs.Kernel.Workers
import Timbre.Proofs.Pipeline.Distribution
import Timbre.Proofs.Pipeline.Soundness

/-! # Several signals at once

What a chain makes of several signals is what it makes of each of them on its own, one after the
other. The number of elements between two stages is the same multiple everywhere, so the elements of
one signal stay together on the way through the chain, no matter how often their number changes.
Main statement: `runChain_signals`, for chains on their own and for the pipelines built for them.
-/
namespace Timbre

/-- A run over a collection answers this one under a name. -/
def Pipeline.Yields (p : Pipeline) (source : AnyBuffers) (name : String) (y : AnyBuffers) : Prop :=
  ∃ features, (p.run source).answer = .ok features ∧ features.find? name = some y

namespace Builder

variable {b : Builder} {id : StageId}

section Chain

variable {source : AnyFormat} {chain : List Link} {k : Nat}

/-- The pipeline is built for so many signals and keeps what the chain makes of them. -/
def BuiltFor (source : AnyFormat) (chain : List Link) (name : String) (k : Nat) (p : Pipeline) :
    Prop :=
  ∃ config available write,
    ((fresh .builtin source k).after [.addFeature name chain]).build config available write = .ok p

theorem exists_builtFor {name : String} (h : (((fresh .builtin source k).after
    [.addFeature name chain]).build {} 1 (fun _ _ => .ok ())).toOption.isSome = true) :
    ∃ p, BuiltFor source chain name k p := by
  cases hp : ((fresh .builtin source k).after [.addFeature name chain]).build {} 1
      (fun _ _ => .ok ()) with
  | error e => simp [hp, Except.toOption] at h
  | ok p => exact ⟨p, {}, 1, fun _ _ => .ok (), hp⟩

/-- The filter banks of a builder get no more points than single precision counts exactly. -/
def Bounded (b : Builder) : Prop :=
  ∀ (i : Nat) e, b.stages[i]? = some e → e.transform.name = FilterBank.kernel.name →
    e.transform.inputFormat.points ≤ 2 ^ 24

theorem addChain_fresh (h : ((fresh .builtin source 1).addChain chain).answer = .ok id) (k : Nat) :
    ((fresh .builtin source k).addChain chain).answer = .ok id ∧
      ((fresh .builtin source k).addChain chain).state =
        ((fresh .builtin source 1).addChain chain).state.times k := by
  have hr : ∀ k ∈ builtinKernels, k.Separable := fun k hk => Kernel.separable_of_mem_builtin hk
  have htimes := addChainFrom_times hr h k
  rw [fresh_times] at htimes
  exact htimes

theorem addFeature_of_addChain (hb : b.WellFormed) {names : List (String × StageId)}
    (hn : b.Named names) {name : String} (hname : name ∉ names.map (·.1)) (hchain : chain ≠ [])
    (h : (b.addChain chain).answer = .ok id) : (b.addFeature name chain).answer = .ok id := by
  have hextends : b.Extends (b.addChain chain).state [] := extends_addChainFrom b .source chain
  have hbefore : b.hasFeature name = false := hn.hasFeature_eq_false_iff.2 hname
  have hafter : (b.addChain chain).state.hasFeature name = false := by
    rw [(hextends.named hn).hasFeature_eq_false_iff, List.append_nil]
    exact hname
  have hempty : chain.isEmpty = false := List.isEmpty_eq_false_iff.2 hchain
  have hpath : (b.addChain chain).state.Path id chain := path_addChainFrom hb .source h
  cases hpath with
  | source => exact absurd rfl hchain
  | stage he _ =>
    unfold addFeature expose
    simp only [hempty, hbefore, h, hafter, entry_eq_ok_iff.2 he]
    rfl

theorem addFeature_fresh (h : ((fresh .builtin source 1).addChain chain).answer = .ok id)
    (hchain : chain ≠ []) (name : String) (k : Nat) :
    ((fresh .builtin source k).addFeature name chain).answer = .ok id :=
  addFeature_of_addChain (wellFormed_fresh .builtin source k) (named_fresh .builtin source k)
    List.not_mem_nil hchain (addChain_fresh h k).1

theorem Bounded.after_addFeature
    (hbounded : ((fresh .builtin source 1).addChain chain).state.Bounded)
    (h : ((fresh .builtin source 1).addChain chain).answer = .ok id) (hchain : chain ≠ [])
    (name : String) (k : Nat) :
    ((fresh .builtin source k).after [.addFeature name chain]).Bounded := by
  obtain ⟨-, hexpose, hstate⟩ := addFeature_of_ok (addFeature_fresh h hchain name k)
  obtain ⟨j, -, -, -, -, hnamed⟩ := expose_of_ok hexpose
  intro i e he hname
  have hafter : (fresh .builtin source k).after [.addFeature name chain] =
      ((fresh .builtin source k).addFeature name chain).state := rfl
  rw [hafter, hstate, hnamed, getElem?_stages_giveName, (addChain_fresh h k).2,
    getElem?_stages_times, Option.map_map] at he
  obtain ⟨x, hx, rfl⟩ := Option.map_eq_some_iff.1 he
  have hle := hbounded i x hx
  dsimp only [Function.comp_apply] at hname ⊢
  split at hname
  · rename_i hj
    rw [if_pos hj]
    exact hle hname
  · rename_i hj
    rw [if_neg hj]
    exact hle hname

theorem isPrefix_of_path {registry : Registry} {name : String} {links : List Link} {i : Nat}
    (h : ((fresh registry source k).addFeature name chain).answer = .ok id)
    (hpath : ((fresh registry source k).after [.addFeature name chain]).Path (.stage i) links) :
    links <+: chain := by
  have hb := wellFormed_fresh registry source k
  obtain ⟨-, hexpose, hstate⟩ := addFeature_of_ok h
  obtain ⟨j, -, -, -, -, hnamed⟩ := expose_of_ok hexpose
  have hafter : (fresh registry source k).after [.addFeature name chain] =
      ((fresh registry source k).addChain chain).state.giveName j name := hstate.trans hnamed
  rw [hafter] at hpath
  have hi : i < ((fresh registry source k).addChain chain).state.size := by
    rw [← size_giveName]
    exact hpath.lt_size
  have hwell : ((fresh registry source k).addChain chain).state.WellFormed :=
    (extends_addChainFrom _ .source chain).wellFormed hb
  have hchain := keeps_giveName.path_of_lt hwell hi hpath
  rcases prefix_of_path_addChainFrom hb .source hchain with hold | ⟨front, hfront, rfl, -⟩
  · cases hold with
    | stage he _ => cases he
  · exact hfront

section BuiltFor

variable {name : String} {p : Pipeline} {signals : Array source.kind.Element}
  (h : ((fresh .builtin source 1).addChain chain).answer = .ok id) (hchain : chain ≠ [])
include h hchain

theorem BuiltFor.exists_runChain (hp : BuiltFor source chain name k p) {batch : AnyBuffers}
    {features : Features} (hrun : (p.run batch).answer = .ok features) (workers : Nat) :
    ∃ y, Registry.builtin.runChain workers ⟨source, k, batch⟩ chain = .ok y ∧
      features.find? name = some y.buffers := by
  obtain ⟨config, available, write, hbuild⟩ := hp
  have hb := wellFormed_after .builtin source k [.addFeature name chain]
  have hn := named_after .builtin source k [.addFeature name chain]
  have hkeeps := (extends_after (fresh .builtin source k) [.addFeature name chain]).keeps
  have hsteady : ∀ k ∈ Registry.builtin.kernels, k.Steady :=
    fun k hk => Kernel.steady_of_mem_builtin hk
  obtain ⟨order, hs⟩ := schedules_of_build hb hbuild
  obtain ⟨hname, hpath⟩ := path_of_addFeature (wellFormed_fresh .builtin source k)
    (addFeature_fresh h hchain name k) []
  obtain ⟨y, hy, hfind⟩ := (hs.features_run hb hn hrun).2 name id chain hname hpath
  rw [hkeeps.registry, hkeeps.source, hkeeps.sourceCount] at hy
  exact ⟨y, Registry.runChain_of_steady hsteady hy workers, hfind⟩

variable (hsource : source.kind ≠ .identity) (hp : BuiltFor source chain name signals.size p)
  (hvalid : ∀ x ∈ signals, source.format.flaw? x = none)
include hsource hp hvalid

theorem BuiltFor.exists_run {workers : Nat} {y : Feed} (hy : Registry.builtin.runChain workers
    ⟨source, signals.size, source.collection signals⟩ chain = .ok y) :
    ∃ features, (p.run (source.collection signals)).answer = .ok features := by
  obtain ⟨config, available, write, hbuild⟩ := hp
  have hb := wellFormed_after .builtin source signals.size [.addFeature name chain]
  have hkeeps := (extends_after (fresh .builtin source signals.size)
    [.addFeature name chain]).keeps
  have hsteady : ∀ k ∈ Registry.builtin.kernels, k.Steady :=
    fun k hk => Kernel.steady_of_mem_builtin hk
  obtain ⟨order, hs⟩ := schedules_of_build hb hbuild
  have hpsource := hs.source_eq.trans hkeeps.source
  have hpcount := hs.sourceCount_eq.trans hkeeps.sourceCount
  have hcheck : p.checkSource (source.collection signals) = .ok () := by
    rw [Pipeline.checkSource_eq_ok_iff (hpsource ▸ hsource), hpsource, hpcount]
    exact ⟨_, rfl, rfl, rfl, hvalid⟩
  refine (hs.run_ok_iff hb _).2 ⟨hcheck, fun i links _ hlinks => ?_⟩
  obtain ⟨rest, rfl⟩ := isPrefix_of_path (addFeature_fresh h hchain name signals.size) hlinks
  obtain ⟨z, hz, -⟩ := Registry.runChain_append_eq_ok_iff.1
    (Registry.runChain_of_steady hsteady hy p.workers)
  rw [hkeeps.registry, hkeeps.source, hkeeps.sourceCount]
  exact ⟨z, hz⟩

theorem BuiltFor.yields_iff (workers : Nat) {z : AnyBuffers} :
    p.Yields (source.collection signals) name z ↔ ∃ y, Registry.builtin.runChain workers
      ⟨source, signals.size, source.collection signals⟩ chain = .ok y ∧ z = y.buffers := by
  constructor
  · rintro ⟨features, hrun, hz⟩
    obtain ⟨y, hy, hfind⟩ := hp.exists_runChain h hchain hrun workers
    rw [hz] at hfind
    exact ⟨y, hy, Option.some_inj.1 hfind⟩
  · rintro ⟨y, hy, rfl⟩
    obtain ⟨features, hrun⟩ := hp.exists_run h hchain hsource hvalid hy
    obtain ⟨y', hy', hfind⟩ := hp.exists_runChain h hchain hrun workers
    rw [hy] at hy'
    cases hy'
    exact ⟨features, hrun, hfind⟩

theorem BuiltFor.exists_yields
    (hbounded : ((fresh .builtin source 1).addChain chain).state.Bounded) :
    ∃ z, p.Yields (source.collection signals) name z := by
  have hbuilt := hp
  obtain ⟨config, available, write, hbuild⟩ := hbuilt
  have hregistry : ∀ k ∈ Registry.builtin.kernels, k ∈ builtinKernels ∨ k.Wildcard :=
    fun k hk => .inl hk
  obtain ⟨hsound, hpsource, hpcount, order, hs⟩ := sound_of_build hregistry hsource
    (hbounded.after_addFeature h hchain name signals.size) hbuild
  have hsuits : (source.collection signals).Suits p.source p.sourceCount := by
    rw [hpsource, hpcount]
    exact ⟨_, rfl, rfl, rfl, hvalid⟩
  obtain ⟨features, hrun⟩ := (hsound.run_ok_iff hs.scheduled (hpsource ▸ hsource) _).2 hsuits
  obtain ⟨y, -, hfind⟩ := hp.exists_runChain h hchain hrun 1
  exact ⟨y.buffers, features, hrun, hfind⟩

end BuiltFor

/-- A pipeline for several signals answers what a pipeline for one answers for each of them. -/
theorem BuiltFor.yields_signals_iff {f : AnyFormat} {count : Nat} {name : String}
    {single p : Pipeline} {signals : List source.kind.Element}
    (hd : Registry.builtin.Distributes chain source 1 f count)
    (h : ((fresh .builtin source 1).addChain chain).answer = .ok id) (hchain : chain ≠ [])
    (hsource : source.kind ≠ .identity) (hsingle : BuiltFor source chain name 1 single)
    (hp : BuiltFor source chain name signals.length p)
    (hvalid : ∀ x ∈ signals, source.format.flaw? x = none) {z : AnyBuffers} :
    p.Yields (source.collection signals.toArray) name z ↔
      ∃ outs, List.Forall₂ (fun x out =>
          single.Yields (source.collection #[x]) name (f.collection out) ∧ out.size = count)
            signals outs ∧
        z = f.collection outs.toArray.flatten := by
  have hfits : ∀ x ∈ signals, source.format.Fits x :=
    fun x hx => Format.fits_of_flaw? (hvalid x hx)
  have halone : ∀ x ∈ signals, ∀ out,
      Registry.builtin.runChain 1 ⟨source, 1, source.collection #[x]⟩ chain =
          .ok ⟨f, count, f.collection out⟩ ∧ out.size = count ↔
        single.Yields (source.collection #[x]) name (f.collection out) ∧ out.size = count := by
    intro x hx out
    have hmem : ∀ z ∈ #[x], z = x := fun z hz => Array.mem_singleton.1 hz
    rw [hsingle.yields_iff h hchain hsource (fun z hz => hmem z hz ▸ hvalid x hx) 1]
    exact and_congr_left' (hd.exists_runChain_iff
      ⟨rfl, fun z hz => hmem z hz ▸ hfits x hx⟩).symm
  rw [hp.yields_iff h hchain hsource (fun x hx => hvalid x (List.mem_toArray.1 hx)) 1]
  simp only [← forall₂_congr halone]
  constructor
  · rintro ⟨y, hy, rfl⟩
    obtain ⟨outs, houts, rfl⟩ := (hd.runChain_signals_iff hfits).1 hy
    exact ⟨outs, houts, rfl⟩
  · rintro ⟨outs, houts, rfl⟩
    exact ⟨_, (hd.runChain_signals_iff hfits).2 ⟨outs, houts, rfl⟩, rfl⟩

/-- A chain that is accepted for one signal is accepted for any number of them, which makes its
outputs so many times as many. What it makes of the signals, on its own or in a pipeline, is what it
makes of each of them, one after the other in their order, and it gets through all of them if and
only if it gets through each. -/
theorem runChain_signals (hsource : source.kind ≠ .identity)
    (h : ((fresh .builtin source 1).addChain chain).answer = .ok id) :
    ∃ f count,
      ((fresh .builtin source 1).addChain chain).state.outputOf id = .ok (f, count) ∧
      (∀ k, ((fresh .builtin source k).addChain chain).answer = .ok id ∧
        ((fresh .builtin source k).addChain chain).state.outputOf id = .ok (f, k * count)) ∧
      ∀ signals : List source.kind.Element, (∀ x ∈ signals, source.format.flaw? x = none) →
        (∀ workers y, Registry.builtin.runChain workers
            ⟨source, signals.length, source.collection signals.toArray⟩ chain = .ok y ↔
          ∃ outs, List.Forall₂ (fun x out =>
              Registry.builtin.runChain workers ⟨source, 1, source.collection #[x]⟩ chain =
                .ok ⟨f, count, f.collection out⟩ ∧ out.size = count) signals outs ∧
            y = ⟨f, signals.length * count, f.collection outs.toArray.flatten⟩) ∧
        ∀ name single p, chain ≠ [] → BuiltFor source chain name 1 single →
          BuiltFor source chain name signals.length p →
            (∀ z, p.Yields (source.collection signals.toArray) name z ↔
              ∃ outs, List.Forall₂ (fun x out =>
                  single.Yields (source.collection #[x]) name (f.collection out) ∧
                    out.size = count) signals outs ∧
                z = f.collection outs.toArray.flatten) ∧
            (((fresh .builtin source 1).addChain chain).state.Bounded →
              ∃ z, p.Yields (source.collection signals.toArray) name z) := by
  obtain ⟨f, count, hout, hdistributes⟩ := distributes_of_addChainFrom
    (b := fresh .builtin source 1) (fun k hk => Kernel.signalWise_of_mem_builtin hk)
    (wellFormed_fresh .builtin source 1) rfl hsource h
  refine ⟨f, count, hout, fun k => ?_, fun signals hvalid => ?_⟩
  · obtain ⟨hanswer, hstate⟩ := addChain_fresh h k
    rw [hstate]
    exact ⟨hanswer, outputOf_times hout k⟩
  · refine ⟨fun workers y => hdistributes.runChain_signals_iff
      fun x hx => Format.fits_of_flaw? (hvalid x hx), fun name single p hchain hsingle hp => ?_⟩
    refine ⟨fun z => hsingle.yields_signals_iff hdistributes h hchain hsource hp hvalid, ?_⟩
    exact hp.exists_yields h hchain hsource fun x hx => hvalid x (List.mem_toArray.1 hx)

end Chain

@[reducible] def fourSamples : AnyFormat := ⟨.array .int16, ⟨(4 : Nat), some .wideband⟩⟩

@[reducible] def measures : AnyFormat := ⟨.single .single, ⟨(), some .wideband⟩⟩

/-- Every second sample is a frame of its own, and its intensity is taken. -/
def framedAndMeasured : List Link :=
  [⟨"Int16ToFloat", .empty⟩, ⟨"Window", .ofList [("length", "1"), ("step", "2")]⟩,
    ⟨"Intensity", .empty⟩]

/-- Each signal has two frames, and the frames of the first signal come before those of the second.
-/
theorem runChain_framedAndMeasured : ∃ (single p : Pipeline) (out out' : Array Single),
    BuiltFor fourSamples framedAndMeasured "energy" 1 single ∧
    BuiltFor fourSamples framedAndMeasured "energy" 2 p ∧
    single.Yields (fourSamples.collection (#[#[1, 2, 3, 4]] : Array (Array Int16))) "energy"
      (measures.collection out) ∧ out.size = 2 ∧
    single.Yields (fourSamples.collection (#[#[5, 6, 7, 8]] : Array (Array Int16))) "energy"
      (measures.collection out') ∧ out'.size = 2 ∧
    p.Yields (fourSamples.collection (#[#[1, 2, 3, 4], #[5, 6, 7, 8]] : Array (Array Int16)))
      "energy" (measures.collection (out ++ out')) := by
  have hadd : ((fresh .builtin fourSamples 1).addChain framedAndMeasured).answer =
      .ok (.stage 2) := by cbv
  have hnames : ((fresh .builtin fourSamples 1).addChain framedAndMeasured).state.stages.toList.map
      (fun e => e.transform.name) = ["Int16ToFloat", "Window", "Intensity"] := by cbv
  have hout : ((fresh .builtin fourSamples 1).addChain framedAndMeasured).state.outputOf
      (.stage 2) = .ok (measures, 2) := by cbv
  obtain ⟨single, hsingle⟩ : ∃ single, BuiltFor fourSamples framedAndMeasured "energy" 1 single :=
    exists_builtFor (by cbv)
  obtain ⟨p, hp⟩ : ∃ p, BuiltFor fourSamples framedAndMeasured "energy" 2 p :=
    exists_builtFor (by cbv)
  obtain ⟨f, count, hf, -, hsignals⟩ := runChain_signals (by decide) hadd
  rw [hout] at hf
  cases hf
  obtain ⟨-, hpipelines⟩ :=
    hsignals ([#[1, 2, 3, 4], #[5, 6, 7, 8]] : List (Array Int16)) (by decide)
  obtain ⟨hyields, hexists⟩ := hpipelines "energy" single p (List.cons_ne_nil _ _) hsingle hp
  obtain ⟨z, hz⟩ := hexists (bounded_of_names (hnames ▸ by decide))
  obtain ⟨outs, houts, rfl⟩ := (hyields z).1 hz
  cases houts with
  | cons hout houts =>
    cases houts with
    | cons hout' houts =>
      cases houts
      rename_i out out'
      have hflatten : [out, out'].toArray.flatten = out ++ out' := by simp
      rw [hflatten] at hz
      exact ⟨single, p, out, out', hsingle, hp, hout.1, hout.2, hout'.1, hout'.2, hz⟩

end Builder

end Timbre
