import Timbre.Proofs.Kernel.Separation
import Timbre.Proofs.Traversal

/-! # One answer for each element

Work is given outputs that hold something already, and a plan with scratch values in which the
element before may have left something. Neither should be seen in what is written. A kernel whose
plan stays as it is only has to write over its outputs. One with scratch values has one answer for
each element: it writes this answer over every output of the right shape, whatever stands in the
scratch values, as long as these have the right shape as well. Such a kernel is sound, writes over
its outputs and separates pieces.
-/
namespace Timbre

namespace Samples

variable {α β σ : Type} {f : σ → α → β → Except Fault (β × σ)}

section

variable (Inv : σ → Prop) (Good : β → Prop) {as : List α} {bs cs : List β} {s : σ}

theorem zipWithM_congr (hbs : bs.length = as.length) (hcs : cs.length = as.length)
    (hgood : ∀ b ∈ bs, Good b) (hgood' : ∀ c ∈ cs, Good c) (hs : Inv s)
    (hf : ∀ s, Inv s → ∀ a ∈ as, ∀ b c, Good b → Good c → f s a b = f s a c)
    (hinv : ∀ s, Inv s → ∀ a ∈ as, ∀ b y t, f s a b = .ok (y, t) → Inv t) :
    zipWithM f s as bs = zipWithM f s as cs := by
  induction as generalizing bs cs s with
  | nil => rw [List.eq_nil_of_length_eq_zero hbs, List.eq_nil_of_length_eq_zero hcs]
  | cons a as ih =>
    obtain ⟨b, bs, rfl⟩ := List.exists_cons_of_length_eq_add_one hbs
    obtain ⟨c, cs, rfl⟩ := List.exists_cons_of_length_eq_add_one hcs
    obtain ⟨hb, hall⟩ := List.forall_mem_cons.1 hgood
    obtain ⟨hc, hall'⟩ := List.forall_mem_cons.1 hgood'
    have ha : a ∈ a :: as := List.mem_cons_self
    rw [zipWithM, zipWithM, hf s hs a ha b c hb hc]
    cases hstep : f s a c with
    | error e => rfl
    | ok r =>
      dsimp only
      rw [ih (Nat.succ_inj.1 hbs) (Nat.succ_inj.1 hcs) hall hall' (hinv s hs a ha c r.1 r.2 hstep)
        (fun s hs a ha => hf s hs a (List.mem_cons_of_mem _ ha))
        fun s hs a ha => hinv s hs a (List.mem_cons_of_mem _ ha)]

theorem exists_zipWithM_eq_map (answer : α → β) (hbs : bs.length = as.length)
    (hgood : ∀ b ∈ bs, Good b) (hs : Inv s)
    (hf : ∀ s, Inv s → ∀ a ∈ as, ∀ b, Good b → ∃ t, f s a b = .ok (answer a, t) ∧ Inv t) :
    ∃ t, zipWithM f s as bs = .ok (as.map answer, t) ∧ Inv t := by
  induction as generalizing bs s with
  | nil =>
    rw [List.eq_nil_of_length_eq_zero hbs]
    exact ⟨s, rfl, hs⟩
  | cons a as ih =>
    obtain ⟨b, bs, rfl⟩ := List.exists_cons_of_length_eq_add_one hbs
    obtain ⟨hb, hall⟩ := List.forall_mem_cons.1 hgood
    obtain ⟨t, hstep, ht⟩ := hf s hs a List.mem_cons_self b hb
    obtain ⟨u, hrest, hu⟩ := ih (Nat.succ_inj.1 hbs) hall ht
      fun s hs a ha => hf s hs a (List.mem_cons_of_mem _ ha)
    refine ⟨u, ?_, hu⟩
    rw [zipWithM, hstep]
    dsimp only
    rw [hrest]
    rfl

end

end Samples

section Run

variable {In Out Plan : Type} {run : Plan → In → Out → Except Fault (Written Out Plan)}
  {Inv : Plan → Prop} {Good : Out → Prop} {x : In} {y : Out}

/-- The answer `y` is written for an element: over every good output, with every plan that the
invariant holds of, which goes on to hold. -/
def Yields (run : Plan → In → Out → Except Fault (Written Out Plan)) (Inv : Plan → Prop)
    (Good : Out → Prop) (x : In) (y : Out) : Prop :=
  ∀ p out, Inv p → Good out → ∃ p', run p x out = .ok ⟨y, p', []⟩ ∧ Inv p'

theorem Yields.sameOver (h : Yields run Inv Good x y) {out : Out} (hout : Good out) :
    SameOver run Inv out x := by
  intro p q hp hq w hw
  obtain ⟨p', hrun, hinv⟩ := h p out hp hout
  obtain ⟨q', hrun', -⟩ := h q out hq hout
  cases hrun.symm.trans hw
  exact ⟨hinv, _, hrun', rfl⟩

namespace Stage

variable {plan : Plan} {inputs : Array In} {outs outs' : Array Out}

theorem workEach_congr
    (hkeeps : ∀ x out w, run plan x out = .ok w → w.plan = plan)
    (hrun : ∀ x ∈ inputs, ∀ out out', Good out → Good out' → run plan x out = run plan x out')
    (hsize : outs.size = inputs.size) (hsize' : outs'.size = inputs.size)
    (hgood : ∀ out ∈ outs, Good out) (hgood' : ∀ out ∈ outs', Good out) :
    workEach run plan inputs outs = workEach run plan inputs outs' := by
  rw [workEach_eq, workEach_eq, Samples.zipWithM_congr (fun p : Progress Plan => p.plan = plan) Good
    hsize hsize' (by simpa using hgood) (by simpa using hgood') rfl]
  · rintro ⟨p, warnings⟩ hp x hx out out' hout hout'
    obtain rfl : plan = p := hp.symm
    rw [eachStep_eq_map, eachStep_eq_map,
      hrun x (Array.mem_toList_iff.1 hx) out out' hout hout']
  · rintro ⟨p, warnings⟩ hp x - out y t ht
    obtain rfl : plan = p := hp.symm
    rw [eachStep_eq_map] at ht
    dsimp only at ht
    cases hw : run plan x out with
    | error e =>
      rw [hw] at ht
      cases ht
    | ok w =>
      rw [hw] at ht
      cases ht
      exact hkeeps x out w hw

theorem exists_workEach_eq_map (answer : In → Out) (hplan : Inv plan)
    (hrun : ∀ x ∈ inputs, Yields run Inv Good x (answer x)) (hsize : outs.size = inputs.size)
    (hgood : ∀ out ∈ outs, Good out) :
    ∃ plan', workEach run plan inputs outs = .ok ⟨inputs.map answer, plan', []⟩ ∧ Inv plan' := by
  have hlength : outs.toList.length = inputs.toList.length := hsize
  obtain ⟨⟨plan', warnings⟩, hzip, hinv, hwarnings⟩ := Samples.exists_zipWithM_eq_map
    (f := eachStep run) (fun p : Progress Plan => Inv p.plan ∧ p.warnings = []) Good answer
    (s := ⟨plan, []⟩) hlength (by simpa using hgood) ⟨hplan, rfl⟩ (by
      rintro ⟨p, _⟩ ⟨hp, rfl⟩ x hx out hout
      obtain ⟨p', hp', hinv⟩ := hrun x (Array.mem_toList_iff.1 hx) p out hp hout
      refine ⟨⟨p', []⟩, ?_, hinv, rfl⟩
      rw [eachStep_eq_map, hp']
      rfl)
  dsimp only at hinv hwarnings
  subst hwarnings
  refine ⟨plan', ?_, hinv⟩
  rw [workEach_eq, hzip, ← Array.toList_map]
  rfl

end Stage

end Run

namespace Stage

variable {k : Kernel} {s : Stage k} {count : Nat}

/-- The stage is for collections of so many elements. What it writes does not depend on what its
outputs held, as long as they have the right number and the right shape. -/
def Overwrites (s : Stage k) (count : Nat) : Prop :=
  ∀ xs outs outs', s.input.FitsAll count xs → s.output.FitsAll s.count outs →
    s.output.FitsAll s.count outs' →
      (s.work xs outs).map Written.output = (s.work xs outs').map Written.output

theorem overwrites_of_wholeBatch
    {run : k.Settings → k.Shape → k.Plan → Array k.input.Element → Array k.output.Element →
      Except Fault (Written (Array k.output.Element) k.Plan)}
    (hwork : k.work = .wholeBatch run)
    (hrun : ∀ xs outs outs', s.input.FitsAll count xs → s.output.FitsAll s.count outs →
      s.output.FitsAll s.count outs' →
        run s.settings s.shape s.plan xs outs = run s.settings s.shape s.plan xs outs') :
    s.Overwrites count := by
  intro xs outs outs' hxs houts houts'
  unfold work
  rw [hwork]
  dsimp only
  rw [hrun xs outs outs' hxs houts houts']

section PerElement

variable {run : k.Settings → k.Shape → k.Plan → k.input.Element → k.output.Element →
    Except Fault (Written k.output.Element k.Plan)} (hwork : k.work = .perElement run)
include hwork

theorem work_of_perElement {xs : Array k.input.Element} {outs : Array k.output.Element}
    (hsize : outs.size = xs.size) : s.work xs outs =
      (workEach (run s.settings s.shape) s.plan xs outs).mapError (.fault k.name) := by
  unfold work
  rw [hwork]
  exact if_pos hsize.symm

theorem overwrites_of_perElement
    (hkeeps : ∀ x out w, run s.settings s.shape s.plan x out = .ok w → w.plan = s.plan)
    (hrun : ∀ x out out', s.input.Fits x → s.output.Fits out → s.output.Fits out' →
      run s.settings s.shape s.plan x out = run s.settings s.shape s.plan x out') :
    s.Overwrites s.count := by
  rintro xs outs outs' ⟨hsize, hxs⟩ ⟨houts, hgood⟩ ⟨houts', hgood'⟩
  rw [work_of_perElement hwork (houts.trans hsize.symm),
    work_of_perElement hwork (houts'.trans hsize.symm),
    workEach_congr hkeeps (fun x hx out out' => hrun x out out' (hxs x hx))
      (houts.trans hsize.symm) (houts'.trans hsize.symm) hgood hgood']

variable {Inv : k.Plan → Prop} (hplan : Inv s.plan)
include hplan

theorem exists_work_eq_map (answer : k.input.Element → k.output.Element)
    (hrun : ∀ x, s.input.Fits x → Yields (run s.settings s.shape) Inv s.output.Fits x (answer x))
    {n : Nat} {xs : Array k.input.Element} {outs : Array k.output.Element}
    (hxs : s.input.FitsAll n xs) (houts : s.output.FitsAll n outs) :
    ∃ plan, s.work xs outs = .ok ⟨xs.map answer, plan, []⟩ ∧ Inv plan := by
  have hsize : outs.size = xs.size := houts.1.trans hxs.1.symm
  obtain ⟨plan, hplan', hinv⟩ := exists_workEach_eq_map answer hplan
    (fun x hx => hrun x (hxs.2 x hx)) hsize houts.2
  refine ⟨plan, ?_, hinv⟩
  rw [work_of_perElement hwork hsize, hplan']
  rfl

end PerElement

theorem overwrites_of_plain
    (f : k.Settings → k.Shape → k.input.Element → k.output.Element →
      Except Fault k.output.Element) (hone : ∀ p q : k.Plan, p = q) {plan : k.Plan}
    (hwork : k.work = .perElement fun settings shape _ x out =>
      (f settings shape x out).map (⟨·, plan, []⟩))
    (hf : ∀ x out out', s.input.Fits x → s.output.Fits out → s.output.Fits out' →
      f s.settings s.shape x out = f s.settings s.shape x out') : s.Overwrites s.count := by
  refine overwrites_of_perElement hwork (fun x out w _ => hone _ _) ?_
  intro x out out' hx hout hout'
  rw [hf x out out' hx hout hout']

end Stage

namespace Kernel

/-- A stage of the kernel that has accepted a format, and is prepared, writes the same whatever its
outputs held. -/
def Overwrites (k : Kernel) : Prop :=
  ∀ settings shape (before : k.Plan) (input : Format k.input) (known output : Format k.output)
    count n workers plan, (k.accept settings shape input known count).answer = .ok (output, n) →
    k.prepare settings (k.accept settings shape input known count).shape before input output
      workers = .ok plan →
    Stage.Overwrites (k := k) ⟨settings, (k.accept settings shape input known count).shape, plan,
      input, output, n, true⟩ count

/-- The kernel can be prepared whenever it has accepted a format, and has one answer for each
element from then on: with the plan that it was prepared with, and with every plan that is related
to this one. The plans for any other numbers of workers are related to it. -/
structure Answering (k : Kernel) (R : k.Settings → k.Plan → k.Plan → Prop) : Prop where
  exists_prepare : ∀ settings shape (before : k.Plan) (input : Format k.input)
    (output : Format k.output) workers,
    ∃ plan, k.prepare settings shape before input output workers = .ok plan
  related : ∀ settings shape (before : k.Plan) (input : Format k.input) (output : Format k.output)
    workers plan workers', k.prepare settings shape before input output workers = .ok plan →
      ∃ plan', k.prepare settings shape before input output workers' = .ok plan' ∧
        R settings plan plan'
  exists_run : ∃ run, k.work = .perElement run ∧
    ∀ settings shape (before : k.Plan) (input : Format k.input) (known output : Format k.output)
      count n workers plan, (k.accept settings shape input known count).answer = .ok (output, n) →
      k.prepare settings (k.accept settings shape input known count).shape before input output
        workers = .ok plan →
      n = count ∧ ∀ x, input.Fits x → ∃ y, output.Fits y ∧
        Yields (run settings (k.accept settings shape input known count).shape) (R settings plan)
          output.Fits x y

namespace Answering

variable {k : Kernel} {R : k.Settings → k.Plan → k.Plan → Prop}

theorem refl (h : k.Answering R) {settings : k.Settings} {shape : k.Shape} {before plan : k.Plan}
    {input : Format k.input} {output : Format k.output} {workers : Nat}
    (hprepare : k.prepare settings shape before input output workers = .ok plan) :
    R settings plan plan := by
  obtain ⟨plan', hprepare', hrelated⟩ :=
    h.related settings shape before input output workers plan workers hprepare
  cases hprepare.symm.trans hprepare'
  exact hrelated

/-- From a plan on that is related to the one that it was prepared with, the stage writes the
answers of the elements, however many there are, and a related plan is left. -/
theorem exists_answer (h : k.Answering R) {settings : k.Settings} {shape : k.Shape}
    {before plan : k.Plan} {input : Format k.input} {known output : Format k.output}
    {count n workers : Nat}
    (haccept : (k.accept settings shape input known count).answer = .ok (output, n))
    (hprepare : k.prepare settings (k.accept settings shape input known count).shape before input
      output workers = .ok plan) :
    n = count ∧ ∃ answer : k.input.Element → k.output.Element,
      (∀ x, input.Fits x → output.Fits (answer x)) ∧
        ∀ p m xs outs, R settings plan p → input.FitsAll m xs → output.FitsAll m outs →
          ∃ p', Stage.work (k := k)
              ⟨settings, (k.accept settings shape input known count).shape, p, input, output, n,
                true⟩ xs outs =
            .ok ⟨xs.map answer, p', []⟩ ∧ R settings plan p' := by
  obtain ⟨run, hwork, hrun⟩ := h.exists_run
  obtain ⟨hn, hyields⟩ := hrun _ _ _ _ _ _ _ _ _ _ haccept hprepare
  have : Nonempty k.output.Element := ⟨output.newElement⟩
  choose! answer hfits hanswer using hyields
  refine ⟨hn, answer, hfits, fun p m xs outs hp hxs houts => ?_⟩
  exact Stage.exists_work_eq_map hwork hp answer hanswer hxs houts

theorem sound (h : k.Answering R) : k.Sound := by
  intro settings input known output count n workers plan _ haccept hprepare xs hxs
  obtain ⟨rfl, answer, hfits, hanswer⟩ := h.exists_answer haccept hprepare
  obtain ⟨p, hwork, -⟩ := hanswer plan n xs _ (h.refl hprepare) hxs (output.fitsAll_replicate n)
  refine ⟨_, hwork, Array.size_map.trans hxs.1, fun y hy => ?_⟩
  obtain ⟨x, hx, rfl⟩ := Array.mem_map.1 hy
  exact hfits x (hxs.2 x hx)

theorem overwrites (h : k.Answering R) : k.Overwrites := by
  intro settings shape before input known output count n workers plan haccept hprepare
    xs outs outs' hxs houts houts'
  obtain ⟨rfl, answer, -, hanswer⟩ := h.exists_answer haccept hprepare
  obtain ⟨p, hwork, -⟩ := hanswer plan n xs outs (h.refl hprepare) hxs houts
  obtain ⟨p', hwork', -⟩ := hanswer plan n xs outs' (h.refl hprepare) hxs houts'
  rw [hwork, hwork']
  rfl

theorem separable (h : k.Answering R) (hcount : k.PassesCount) : k.Separable := by
  obtain ⟨run, hwork, hrun⟩ := h.exists_run
  refine separable_of_perElement hwork hcount h.sound.fitting
    fun settings input known output count workers haccept => ?_
  obtain ⟨plan, hprepare⟩ := h.exists_prepare settings
    (k.accept settings k.shape input known count).shape k.plan input output workers
  refine ⟨plan, hprepare, R settings plan, h.refl hprepare, fun x hx => ?_⟩
  obtain ⟨y, -, hyield⟩ := (hrun _ _ _ _ _ _ _ _ _ _ haccept hprepare).2 x hx
  exact hyield.sameOver (Format.fits_newElement output)

end Answering

end Kernel

end Timbre
