import Timbre.Proofs.Pipeline.Scaling
import Timbre.Proofs.Pipeline.Standalone

/-! # Chains over pieces of a collection

Links distribute over pieces if what they make of several pieces, one after the other, is what they
make of each. A link does if its kernel separates pieces, and links one after the other do if each
does. So a chain that was added to a builder distributes over the pieces that it was added for.
-/
namespace Timbre

/-- A filled collection of elements in a format. -/
def AnyFormat.collection (f : AnyFormat) (xs : Array f.kind.Element) : AnyBuffers :=
  ⟨f.kind, .ofElements f.format xs⟩

theorem AnyFormat.collection_inj {f : AnyFormat} {xs ys : Array f.kind.Element}
    (h : f.collection xs = f.collection ys) : xs = ys := by
  unfold collection at h
  cases h
  rfl

/-- A reliable kernel that reads its elements and separates pieces of them. -/
structure Kernel.SignalWise (k : Kernel) : Prop where
  reliable : k.Reliable
  separable : k.Separable
  input_ne : k.input ≠ .identity

theorem Kernel.signalWise_of_mem_builtin {k : Kernel} (h : k ∈ builtinKernels) : k.SignalWise := by
  have hinput : ∀ k ∈ builtinKernels, k.input ≠ .identity := by decide
  exact ⟨reliable_of_mem_builtin h, separable_of_mem_builtin h, hinput k h⟩

namespace Stage

variable {k : Kernel} {s s' : Stage k}

theorem prepare_eq {workers : Nat} {plan : k.Plan}
    (h : k.prepare s.settings s.shape s.plan s.input s.output (max workers 1) = .ok plan) :
    s.prepare workers = .ok { s with plan := plan, prepared := true } := by
  unfold prepare
  rw [h]

theorem prepare_times {workers : Nat} (h : s.prepare workers = .ok s') (m : Nat) :
    (s.times m).prepare workers = .ok (s'.times m) := by
  obtain ⟨plan, hplan, rfl⟩ := prepare_eq_ok h
  exact prepare_eq (s := s.times m) hplan

theorem execute_collection_iff (hprepared : s.prepared = true) (hk : k.input ≠ .identity)
    {xs : Array k.input.Element} {x : Execution k} :
    s.execute (AnyFormat.collection ⟨k.input, s.input⟩ xs) ⟨_, s.freshOutputs⟩ = .ok x ↔
      ∃ w, s.work xs s.freshOutputs.elements = .ok w ∧
        x = ⟨{ s with plan := w.plan }, .ofElements s.output w.output, w.warnings⟩ := by
  have htake : s.takeElements (AnyFormat.collection ⟨k.input, s.input⟩ xs) =
      .ok (.ofElements s.input xs) := by
    unfold takeElements
    rw [if_neg (mt Kind.isIdentity_id_iff.1 hk)]
    exact s.input.downcast_mk _
  rw [execute_eq_ok_iff, htake]
  constructor
  · rintro ⟨-, c, w, hc, hw, rfl⟩
    cases hc
    exact ⟨w, hw, rfl⟩
  · rintro ⟨w, hw, rfl⟩
    exact ⟨hprepared, _, w, rfl, hw, rfl⟩

end Stage

namespace Registry

variable {r : Registry} {workers : Nat} {link : Link} {fresh : Transform}

section Link

variable {k : Kernel} {s s' : Stage k} {count n : Nat} {warnings : List Warning}

theorem runLink_collection_iff (hcreate : r.create link.name link.params = .ok fresh)
    (haccept : fresh.accept ⟨k.input, s.input⟩ count = ⟨⟨k, s'⟩, .ok n, warnings⟩)
    (hprepare : s'.prepare workers = .ok s) (hk : k.input ≠ .identity)
    {xs : Array k.input.Element} {y : Feed} :
    r.runLink workers ⟨⟨k.input, s.input⟩, count, AnyFormat.collection ⟨k.input, s.input⟩ xs⟩ link =
        .ok y ↔
      ∃ ys, s.Writes xs ys ∧
        y = ⟨⟨k.output, s.output⟩, s.count, AnyFormat.collection ⟨k.output, s.output⟩ ys⟩ := by
  have hprepared : s.prepared = true := by
    obtain ⟨plan, -, rfl⟩ := Stage.prepare_eq_ok hprepare
    rfl
  unfold runLink
  rw [hcreate]
  dsimp only
  rw [haccept]
  dsimp only [Transform.prepare]
  rw [hprepare]
  dsimp only [Transform.execute, Transform.freshOutputs]
  constructor
  · intro h
    cases hx : s.execute (AnyFormat.collection ⟨k.input, s.input⟩ xs) ⟨_, s.freshOutputs⟩ with
    | error e =>
      rw [hx] at h
      cases h
    | ok x =>
      rw [hx] at h
      cases h
      obtain ⟨w, hw, rfl⟩ := (Stage.execute_collection_iff hprepared hk).1 hx
      exact ⟨w.output, ⟨w, hw, rfl⟩, rfl⟩
  · rintro ⟨ys, ⟨w, hw, rfl⟩, rfl⟩
    have hx := (Stage.execute_collection_iff hprepared hk).2 ⟨w, hw, rfl⟩
    rw [hx]
    rfl

end Link

theorem runChain_append_eq_ok_iff {links links' : List Link} {x y : Feed} :
    r.runChain workers x (links ++ links') = .ok y ↔
      ∃ z, r.runChain workers x links = .ok z ∧ r.runChain workers z links' = .ok y := by
  induction links generalizing x with
  | nil =>
    constructor
    · intro h
      exact ⟨x, rfl, h⟩
    · rintro ⟨z, hz, h⟩
      cases hz
      exact h
  | cons link links ih =>
    rw [List.cons_append, runChain, runChain]
    cases r.runLink workers x link with
    | error e => simp
    | ok z => exact ih

/-- Links that make of elements of one format and number elements of another. What they make of
several pieces is what they make of each piece, one after the other, and they get through all of
them together if and only if they get through each. -/
structure Distributes (r : Registry) (links : List Link) (f : AnyFormat) (count : Nat)
    (g : AnyFormat) (n : Nat) : Prop where
  fits : ∀ workers xs, f.format.FitsAll count xs → ∀ y,
    r.runChain workers ⟨f, count, f.collection xs⟩ links = .ok y →
      ∃ out, y = ⟨g, n, g.collection out⟩ ∧ g.format.FitsAll n out
  flatten : ∀ workers (pieces : List (Array f.kind.Element)),
    (∀ p ∈ pieces, f.format.FitsAll count p) → ∀ y,
      r.runChain workers ⟨f, pieces.length * count, f.collection pieces.toArray.flatten⟩ links =
          .ok y ↔
        ∃ outs, List.Forall₂ (fun p out =>
            r.runChain workers ⟨f, count, f.collection p⟩ links = .ok ⟨g, n, g.collection out⟩)
              pieces outs ∧
          y = ⟨g, pieces.length * n, g.collection outs.toArray.flatten⟩

variable {f g j : AnyFormat} {count n m : Nat}

theorem distributes_nil (r : Registry) (f : AnyFormat) (count : Nat) :
    r.Distributes [] f count f count := by
  constructor
  · intro workers xs hxs y hy
    cases hy
    exact ⟨xs, rfl, hxs⟩
  · intro workers pieces _ y
    have hpiece (outs : List (Array f.kind.Element)) : List.Forall₂ (fun p out =>
        r.runChain workers ⟨f, count, f.collection p⟩ [] = .ok ⟨f, count, f.collection out⟩)
          pieces outs ↔ pieces = outs := by
      rw [← List.forall₂_eq_eq_eq]
      apply forall₂_congr
      intro p _ out
      constructor
      · intro hp
        exact AnyFormat.collection_inj (congrArg Feed.buffers (Except.ok.inj hp))
      · rintro rfl
        rfl
    simp only [hpiece]
    constructor
    · intro hy
      cases hy
      exact ⟨pieces, rfl, rfl⟩
    · rintro ⟨_, rfl, rfl⟩
      rfl

theorem Distributes.append {links links' : List Link} (h : r.Distributes links f count g n)
    (h' : r.Distributes links' g n j m) : r.Distributes (links ++ links') f count j m := by
  constructor
  · intro workers xs hxs y hy
    obtain ⟨z, hz, hy⟩ := runChain_append_eq_ok_iff.1 hy
    obtain ⟨mid, rfl, hmid⟩ := h.fits workers xs hxs z hz
    exact h'.fits workers mid hmid y hy
  · intro workers pieces hpieces y
    have hpiece : ∀ p ∈ pieces, ∀ out,
        (∃ z, r.runChain workers ⟨f, count, f.collection p⟩ links = .ok z ∧
          r.runChain workers z links' = .ok ⟨j, m, j.collection out⟩) ↔
        ∃ mid, r.runChain workers ⟨f, count, f.collection p⟩ links = .ok ⟨g, n, g.collection mid⟩ ∧
          r.runChain workers ⟨g, n, g.collection mid⟩ links' = .ok ⟨j, m, j.collection out⟩ := by
      intro p hp out
      constructor
      · rintro ⟨z, hz, hout⟩
        obtain ⟨mid, rfl, -⟩ := h.fits workers p (hpieces p hp) z hz
        exact ⟨mid, hz, hout⟩
      · rintro ⟨mid, hmid, hout⟩
        exact ⟨_, hmid, hout⟩
    have hmid {mids : List (Array g.kind.Element)} (hmids : List.Forall₂ (fun p mid =>
        r.runChain workers ⟨f, count, f.collection p⟩ links = .ok ⟨g, n, g.collection mid⟩)
          pieces mids) : ∀ mid ∈ mids, g.format.FitsAll n mid := by
      intro mid hmem
      obtain ⟨p, hp, hrun⟩ := exists_of_mem_forall₂ hmids hmem
      obtain ⟨out, hout, hfit⟩ := h.fits workers p (hpieces p hp) _ hrun
      exact AnyFormat.collection_inj (congrArg Feed.buffers hout) ▸ hfit
    simp only [runChain_append_eq_ok_iff, h.flatten workers pieces hpieces, forall₂_congr hpiece,
      forall₂_comp_iff]
    constructor
    · rintro ⟨_, ⟨mids, hmids, rfl⟩, hy⟩
      rw [hmids.length_eq] at hy ⊢
      obtain ⟨outs, houts, rfl⟩ := (h'.flatten workers mids (hmid hmids) y).1 hy
      exact ⟨outs, ⟨mids, hmids, houts⟩, rfl⟩
    · rintro ⟨outs, ⟨mids, hmids, houts⟩, rfl⟩
      refine ⟨_, ⟨mids, hmids, rfl⟩, ?_⟩
      rw [hmids.length_eq]
      exact (h'.flatten workers mids (hmid hmids) _).2 ⟨outs, houts, rfl⟩

/-- A link makes of several pieces what it makes of each if its stage separates them, however many
workers it is prepared for. -/
theorem distributes_of_separates {k : Kernel} {s' : Stage k} {input : Format k.input}
    {warnings : List Warning} (hcreate : r.create link.name link.params = .ok fresh)
    (haccept : fresh.accept ⟨k.input, input⟩ count = ⟨⟨k, s'⟩, .ok n, warnings⟩)
    (htimes : ∀ m, ∃ warnings', fresh.accept ⟨k.input, input⟩ (m * count) =
      ⟨⟨k, s'.times m⟩, .ok (m * n), warnings'⟩) (hk : k.input ≠ .identity)
    (hprepare : ∀ workers, ∃ s : Stage k, s.input = input ∧ s.output = s'.output ∧ s.count = n ∧
      s'.prepare workers = .ok s ∧ s.Separates count) :
    r.Distributes [link] ⟨k.input, input⟩ count ⟨k.output, s'.output⟩ n := by
  constructor
  · intro workers xs hxs y hy
    obtain ⟨s, rfl, houtput, rfl, hs, hseparates⟩ := hprepare workers
    rw [runChain_singleton, runLink_collection_iff hcreate haccept hs hk] at hy
    obtain ⟨ys, hys, rfl⟩ := hy
    rw [← houtput]
    exact ⟨ys, rfl, hseparates.fits xs ys hxs hys⟩
  · intro workers pieces hpieces y
    obtain ⟨s, rfl, houtput, rfl, hs, hseparates⟩ := hprepare workers
    obtain ⟨warnings', hmany⟩ := htimes pieces.length
    rw [← houtput]
    have hpiece : ∀ p ∈ pieces, ∀ out, r.runLink workers ⟨⟨k.input, s.input⟩, count,
        AnyFormat.collection ⟨k.input, s.input⟩ p⟩ link =
          .ok ⟨⟨k.output, s.output⟩, s.count, AnyFormat.collection ⟨k.output, s.output⟩ out⟩ ↔
        s.Writes p out := by
      intro p _ out
      rw [runLink_collection_iff hcreate haccept hs hk]
      constructor
      · rintro ⟨ys, hys, hy⟩
        have hout := AnyFormat.collection_inj (congrArg Feed.buffers hy)
        exact hout ▸ hys
      · intro hout
        exact ⟨out, hout, rfl⟩
    simp only [runChain_singleton]
    refine (runLink_collection_iff (s := s.times pieces.length) hcreate hmany
      (Stage.prepare_times hs pieces.length) hk).trans ?_
    simp only [hseparates.writes_flatten pieces hpieces]
    constructor
    · rintro ⟨_, ⟨outs, houts, rfl⟩, rfl⟩
      exact ⟨outs, (forall₂_congr hpiece).2 houts, rfl⟩
    · rintro ⟨outs, houts, rfl⟩
      exact ⟨_, ⟨outs, (forall₂_congr hpiece).1 houts, rfl⟩, rfl⟩

theorem distributes_link (hr : ∀ k ∈ r.kernels, k.SignalWise) {t : Transform}
    {warnings : List Warning} (hcreate : r.create link.name link.params = .ok fresh)
    (haccept : fresh.accept f count = ⟨t, .ok n, warnings⟩) (hf : f.kind ≠ .identity) :
    r.Distributes [link] f count t.outputFormat n := by
  have htimes := Transform.accept_times (fun k hk => (hr k hk).separable) hcreate haccept
  obtain ⟨k, hmem, settings, rfl⟩ := create_eq_ok hcreate
  have hk := hr k hmem
  obtain ⟨s', hs, rfl⟩ := Transform.accept_eq_ok haccept
  obtain ⟨input, known, output, hinput, -, hanswer, rfl⟩ := Stage.accept_eq_ok hs
  obtain rfl : f = ⟨k.input, input⟩ :=
    (Stage.takeInput_eq_ok hk.reliable hf hinput).resolve_right hk.input_ne
  refine distributes_of_separates hcreate haccept htimes hk.input_ne fun workers => ?_
  obtain ⟨plan, hplan, hseparates⟩ :=
    hk.separable.exists_prepare settings input known output count n (max workers 1) hanswer
  refine ⟨_, ?_, ?_, ?_, Stage.prepare_eq hplan, hseparates⟩
  all_goals rfl

theorem Distributes.exists_runChain_iff {links : List Link} (h : r.Distributes links f count g n)
    {xs : Array f.kind.Element} (hxs : f.format.FitsAll count xs) {out : Array g.kind.Element} :
    (∃ y, r.runChain workers ⟨f, count, f.collection xs⟩ links = .ok y ∧
        g.collection out = y.buffers) ↔
      r.runChain workers ⟨f, count, f.collection xs⟩ links = .ok ⟨g, n, g.collection out⟩ := by
  constructor
  · rintro ⟨y, hy, hbuffers⟩
    obtain ⟨out', rfl, -⟩ := h.fits workers xs hxs y hy
    rw [hy, hbuffers]
  · intro hrun
    exact ⟨_, hrun, rfl⟩

theorem Distributes.runChain_signals_iff {links : List Link} (h : r.Distributes links f 1 g n)
    {signals : List f.kind.Element} (hsignals : ∀ x ∈ signals, f.format.Fits x) {y : Feed} :
    r.runChain workers ⟨f, signals.length, f.collection signals.toArray⟩ links = .ok y ↔
      ∃ outs, List.Forall₂ (fun x out =>
          r.runChain workers ⟨f, 1, f.collection #[x]⟩ links = .ok ⟨g, n, g.collection out⟩ ∧
            out.size = n) signals outs ∧
        y = ⟨g, signals.length * n, g.collection outs.toArray.flatten⟩ := by
  have hflatten : (signals.map fun x => #[x]).toArray.flatten = signals.toArray := by
    rw [Array.flatten_toArray, List.map_map]
    exact congrArg List.toArray (List.flatMap_singleton' signals)
  have hpiece : ∀ x ∈ signals, f.format.FitsAll 1 #[x] := by
    intro x hx
    refine ⟨rfl, fun z hz => ?_⟩
    rw [Array.mem_singleton.1 hz]
    exact hsignals x hx
  have hpieces : ∀ p ∈ signals.map fun x => #[x], f.format.FitsAll 1 p := by
    intro p hp
    obtain ⟨x, hx, rfl⟩ := List.mem_map.1 hp
    exact hpiece x hx
  have hrun := h.flatten workers _ hpieces y
  rw [hflatten, List.length_map, Nat.mul_one] at hrun
  rw [hrun]
  refine exists_congr fun outs => and_congr_left fun _ => ?_
  rw [List.forall₂_map_left_iff]
  refine forall₂_congr fun x hx out => ⟨fun hout => ⟨hout, ?_⟩, fun hout => hout.1⟩
  obtain ⟨out', heq, hfits⟩ := h.fits workers _ (hpiece x hx) _ hout
  rw [AnyFormat.collection_inj (congrArg Feed.buffers heq)]
  exact hfits.1

end Registry

namespace Builder

variable {b : Builder} {id last : StageId} {f : AnyFormat} {count : Nat}

theorem accepts_of_follow (hb : b.WellFormed) {next : StageId} {link : Link}
    (hout : b.outputOf id = .ok (f, count)) (h : (b.follow id link).answer = .ok next) :
    ∃ fresh t n warnings, b.registry.create link.name link.params = .ok fresh ∧
      fresh.accept f count = ⟨t, .ok n, warnings⟩ ∧
        (b.follow id link).state.outputOf next = .ok (t.outputFormat, n) := by
  obtain ⟨i, e, rfl, he, rfl, rfl⟩ := entry_of_follow hb h
  have hextends := extends_follow b e.parent e.link
  obtain ⟨fresh, format, count', n, warnings, hcreate, hparent, haccept⟩ :=
    (hextends.wellFormed hb).accepts i e he
  rw [hextends.keeps.outputOf hout] at hparent
  rw [hextends.keeps.registry] at hcreate
  cases hparent
  refine ⟨fresh, e.transform, n, warnings, hcreate, haccept, ?_⟩
  rw [outputOf_stage he, Transform.outputCount_of_accept haccept]

/-- An added chain makes of several pieces what it makes of each of them. -/
theorem distributes_of_addChainFrom (hr : ∀ k ∈ b.registry.kernels, k.SignalWise)
    (hb : b.WellFormed) (hout : b.outputOf id = .ok (f, count)) (hf : f.kind ≠ .identity)
    {chain : List Link} (h : (b.addChainFrom id chain).answer = .ok last) :
    ∃ g n, (b.addChainFrom id chain).state.outputOf last = .ok (g, n) ∧
      b.registry.Distributes chain f count g n := by
  induction chain generalizing b id f count with
  | nil =>
    cases h
    exact ⟨f, count, hout, Registry.distributes_nil _ f count⟩
  | cons link chain ih =>
    simp only [addChainFrom] at h ⊢
    cases hfollow : (b.follow id link).answer with
    | error err => simp [hfollow] at h
    | ok next =>
      simp only [hfollow] at h
      dsimp only
      obtain ⟨fresh, t, n, warnings, hcreate, haccept, hnext⟩ := accepts_of_follow hb hout hfollow
      have hextends := extends_follow b id link
      have hregistry := hextends.keeps.registry
      have hkind : t.outputFormat.kind ≠ .identity :=
        Transform.outputFormat_ne_identity (fun k hk => (hr k hk).reliable) hcreate haccept
      obtain ⟨g, m, hlast, hrest⟩ := ih (hregistry ▸ hr) (hextends.wellFormed hb) hnext hkind h
      rw [hregistry] at hrest
      exact ⟨g, m, hlast, (Registry.distributes_link hr hcreate haccept hf).append hrest⟩

end Builder

end Timbre
