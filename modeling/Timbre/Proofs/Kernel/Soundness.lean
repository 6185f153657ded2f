import Mathlib.Data.List.Basic
import Timbre.Stage

/-! # Sound kernels

A kernel is sound if a stage of it that has accepted a format, and has been prepared, never fails on
as many elements of this format as it has been told, and then writes as many elements as it has
promised, each of the shape of its output format. Nothing is said of the values of the samples.
-/
namespace Timbre

namespace Samples

variable {α β σ : Type} {f : σ → α → β → Except Fault (β × σ)}

/-- Steps that keep an invariant of the state and have an answer each have an answer together. -/
theorem exists_zipWithM (Inv : σ → Prop) (Good : β → Prop) {as : List α} {bs : List β} {s : σ}
    (hlen : as.length = bs.length) (hs : Inv s)
    (hf : ∀ s, Inv s → ∀ a ∈ as, ∀ b ∈ bs,
      ∃ b' s', f s a b = .ok (b', s') ∧ Good b' ∧ Inv s') :
    ∃ bs' s', zipWithM f s as bs = .ok (bs', s') ∧ bs'.length = bs.length ∧
      (∀ b ∈ bs', Good b) ∧ Inv s' := by
  induction as generalizing bs s with
  | nil =>
    cases bs with
    | nil => exact ⟨[], s, rfl, rfl, fun b hb => absurd hb List.not_mem_nil, hs⟩
    | cons b bs => cases hlen
  | cons a as ih =>
    cases bs with
    | nil => cases hlen
    | cons b bs =>
      obtain ⟨b', s', hb', hgood, hs'⟩ := hf s hs a List.mem_cons_self b List.mem_cons_self
      obtain ⟨bs', s'', hbs', hlen', hall, hs''⟩ := ih (Nat.succ_inj.1 hlen) hs'
        fun s hs a ha b hb => hf s hs a (List.mem_cons_of_mem _ ha) b (List.mem_cons_of_mem _ hb)
      refine ⟨b' :: bs', s'', ?_, congrArg (· + 1) hlen', ?_, hs''⟩
      · rw [zipWithM, hb']
        dsimp only
        rw [hbs']
      · exact List.forall_mem_cons.2 ⟨hgood, hall⟩

theorem mem_of_mem_extract {xs : Array α} {start stop : Nat} {x : α}
    (h : x ∈ xs.extract start stop) : x ∈ xs := by
  obtain ⟨i, hi, rfl⟩ := Array.mem_extract_iff_getElem.1 h
  exact Array.getElem_mem _

end Samples

namespace Format

variable {k : Kind}

/-- The element has the length that the format asks for. -/
def Fits : {k : Kind} → Format k → k.Element → Prop
  | .array _, f, xs => xs.size = f.extent
  | .single _, _, _ => True
  | .identity, _, _ => True

def FitsAll (f : Format k) (count : Nat) (xs : Array k.Element) : Prop :=
  xs.size = count ∧ ∀ x ∈ xs, f.Fits x

theorem fits_newElement (f : Format k) : f.Fits f.newElement := by
  cases k with
  | array s => exact Array.size_replicate
  | single s => trivial
  | identity => trivial

theorem fits_of_flaw? {f : Format k} {x : k.Element} (h : f.flaw? x = none) : f.Fits x := by
  cases k with
  | array s =>
    simp only [flaw?] at h
    split at h
    · rename_i hsize
      exact hsize
    · cases h
  | single s => trivial
  | identity => trivial

theorem fitsAll_singleton {f : Format k} {x : k.Element} (h : f.Fits x) : f.FitsAll 1 #[x] :=
  ⟨rfl, by simpa using h⟩

theorem fitsAll_replicate (f : Format k) (count : Nat) :
    f.FitsAll count (Array.replicate count f.newElement) := by
  refine ⟨Array.size_replicate, fun x hx => ?_⟩
  rw [(Array.mem_replicate.1 hx).2]
  exact f.fits_newElement

end Format

theorem plainWork_eq {Settings Shape In Out : Type}
    (f : Settings → Shape → In → Out → Except Fault Out) :
    plainWork f = .perElement fun settings shape _ x out =>
      (f settings shape x out).map (⟨·, (), []⟩) := by
  unfold plainWork
  congr
  funext settings shape plan x out
  cases f settings shape x out <;> rfl

namespace Stage

variable {k : Kernel} {s : Stage k}

/-- The stage works on any so many elements that fit its input format. -/
def Works (s : Stage k) (count : Nat) : Prop :=
  ∀ inputs, s.input.FitsAll count inputs →
    ∃ w, s.work inputs s.freshOutputs.elements = .ok w ∧ s.output.FitsAll s.count w.output

theorem prepare_eq_ok {t : Stage k} {workers : Nat} (h : s.prepare workers = .ok t) :
    ∃ plan, k.prepare s.settings s.shape s.plan s.input s.output (max workers 1) = .ok plan ∧
      t = { s with plan := plan, prepared := true } := by
  unfold prepare at h
  split at h
  · cases h
  · rename_i plan hplan
    cases h
    exact ⟨plan, hplan, rfl⟩

def eachStep {In Out Plan : Type} (run : Plan → In → Out → Except Fault (Written Out Plan))
    (p : Progress Plan) (x : In) (out : Out) : Except Fault (Out × Progress Plan) :=
  match run p.plan x out with
  | .error e => .error e
  | .ok w => .ok (w.output, ⟨w.plan, p.warnings ++ w.warnings⟩)

theorem eachStep_eq_map {In Out Plan : Type}
    (run : Plan → In → Out → Except Fault (Written Out Plan)) (p : Progress Plan) (x : In)
    (out : Out) : eachStep run p x out =
      (run p.plan x out).map fun w => (w.output, ⟨w.plan, p.warnings ++ w.warnings⟩) := by
  unfold eachStep
  cases run p.plan x out <;> rfl

theorem workEach_eq {In Out Plan : Type} (run : Plan → In → Out → Except Fault (Written Out Plan))
    (plan : Plan) (inputs : Array In) (outputs : Array Out) :
    workEach run plan inputs outputs =
      (Samples.zipWithM (eachStep run) ⟨plan, []⟩ inputs.toList outputs.toList).map fun r =>
        ⟨r.1.toArray, r.2.plan, r.2.warnings⟩ := by
  unfold workEach
  split
  · rename_i e he
    rw [show Samples.zipWithM (eachStep run) _ _ _ = .error e from he]
    rfl
  · rename_i outs p hok
    rw [show Samples.zipWithM (eachStep run) _ _ _ = .ok (outs, p) from hok]
    rfl

theorem exists_workEach {In Out Plan : Type}
    (run : Plan → In → Out → Except Fault (Written Out Plan)) (Inv : Plan → Prop)
    (Good : Out → Prop) {plan : Plan} {inputs : Array In} {outputs : Array Out}
    (hsize : inputs.size = outputs.size) (hplan : Inv plan)
    (hrun : ∀ plan, Inv plan → ∀ x ∈ inputs, ∀ out ∈ outputs,
      ∃ w, run plan x out = .ok w ∧ Good w.output ∧ Inv w.plan) :
    ∃ w, workEach run plan inputs outputs = .ok w ∧ w.output.size = outputs.size ∧
      ∀ y ∈ w.output, Good y := by
  have hlength : inputs.toList.length = outputs.toList.length := hsize
  obtain ⟨outs, p, hzip, hlen, hgood, -⟩ := Samples.exists_zipWithM
    (fun p : Progress Plan => Inv p.plan) Good (f := eachStep run) (s := ⟨plan, []⟩) hlength hplan
    fun p hp x hx out hout => by
      obtain ⟨w, hw, hgood, hinv⟩ := hrun p.plan hp x (Array.mem_toList_iff.1 hx) out
        (Array.mem_toList_iff.1 hout)
      exact ⟨_, _, (eachStep_eq_map ..).trans (congrArg (Except.map _) hw), hgood, hinv⟩
  refine ⟨⟨outs.toArray, p.plan, p.warnings⟩, ?_, hlen, fun y hy => hgood y (by simpa using hy)⟩
  rw [workEach_eq, hzip]
  rfl

/-- Work element by element succeeds if it does on each element. -/
theorem works_of_perElement
    {run : k.Settings → k.Shape → k.Plan → k.input.Element → k.output.Element →
      Except Fault (Written k.output.Element k.Plan)}
    (hwork : k.work = .perElement run) (Inv : k.Plan → Prop) (hplan : Inv s.plan)
    (hrun : ∀ plan x, Inv plan → s.input.Fits x → ∃ w,
      run s.settings s.shape plan x s.output.newElement = .ok w ∧ s.output.Fits w.output ∧
        Inv w.plan) : s.Works s.count := by
  rintro inputs ⟨hsize, hfits⟩
  have hfresh : s.freshOutputs.elements = Array.replicate s.count s.output.newElement := rfl
  have hsizes : inputs.size = s.freshOutputs.elements.size := by
    rw [hfresh, Array.size_replicate, hsize]
  obtain ⟨w, hw, hlen, hgood⟩ := exists_workEach (run s.settings s.shape) Inv s.output.Fits
    hsizes hplan (fun plan hp x hx out hout => by
      rw [hfresh] at hout
      rw [(Array.mem_replicate.1 hout).2]
      exact hrun plan x hp (hfits x hx))
  refine ⟨w, ?_, ?_, hgood⟩
  · unfold work
    rw [hwork]
    dsimp only
    rw [if_pos hsizes, hw]
    rfl
  · rw [hlen, hfresh, Array.size_replicate]

theorem works_of_no_elements
    {run : k.Settings → k.Shape → k.Plan → k.input.Element → k.output.Element →
      Except Fault (Written k.output.Element k.Plan)}
    (hwork : k.work = .perElement run) (hcount : s.count = 0) : s.Works 0 := by
  rintro inputs ⟨hsize, -⟩
  have hfresh : s.freshOutputs.elements = #[] := Array.size_eq_zero_iff.1
    (Array.size_replicate.trans hcount)
  obtain rfl := Array.size_eq_zero_iff.1 hsize
  refine ⟨⟨#[], s.plan, []⟩, ?_, hcount.symm, fun y hy => absurd hy (Array.not_mem_empty y)⟩
  unfold work
  rw [hwork, hfresh]
  rfl

theorem work_eq_fault
    {run : k.Settings → k.Shape → k.Plan → k.input.Element → k.output.Element →
      Except Fault (Written k.output.Element k.Plan)}
    (hwork : k.work = .perElement run) {inputs : Array k.input.Element}
    {outputs : Array k.output.Element} {e : Fault} (hsize : inputs.size = outputs.size)
    (hne : inputs.size ≠ 0)
    (hrun : ∀ x ∈ inputs, ∀ out ∈ outputs, run s.settings s.shape s.plan x out = .error e) :
    s.work inputs outputs = .error (.fault k.name e) := by
  obtain ⟨xs⟩ := inputs
  obtain ⟨ys⟩ := outputs
  cases xs with
  | nil => exact absurd rfl hne
  | cons x xs =>
    cases ys with
    | nil => cases hsize
    | cons y ys =>
      have hfirst := hrun x (by simp) y (by simp)
      unfold work
      rw [hwork]
      dsimp only
      rw [if_pos hsize, workEach_eq, Samples.zipWithM, eachStep_eq_map, hfirst]
      rfl

theorem works_of_plain
    (f : k.Settings → k.Shape → k.input.Element → k.output.Element →
      Except Fault k.output.Element) {plan : k.Plan}
    (hwork : k.work = .perElement fun settings shape _ x out =>
      (f settings shape x out).map (⟨·, plan, []⟩))
    (hf : ∀ x, s.input.Fits x → ∃ y, f s.settings s.shape x s.output.newElement = .ok y ∧
      s.output.Fits y) : s.Works s.count := by
  refine works_of_perElement hwork (fun _ => True) trivial fun _ x _ hx => ?_
  obtain ⟨y, hy, hfits⟩ := hf x hx
  exact ⟨⟨y, plan, []⟩, by rw [hy]; rfl, hfits, trivial⟩

theorem works_of_wholeBatch
    {run : k.Settings → k.Shape → k.Plan → Array k.input.Element → Array k.output.Element →
      Except Fault (Written (Array k.output.Element) k.Plan)}
    (hwork : k.work = .wholeBatch run) {count : Nat}
    (hrun : ∀ inputs, s.input.FitsAll count inputs → ∃ w,
      run s.settings s.shape s.plan inputs (Array.replicate s.count s.output.newElement) = .ok w ∧
        s.output.FitsAll s.count w.output) : s.Works count := by
  intro inputs hinputs
  obtain ⟨w, hw, hfits⟩ := hrun inputs hinputs
  refine ⟨w, ?_, hfits⟩
  unfold work
  rw [hwork]
  have hfresh : s.freshOutputs.elements = Array.replicate s.count s.output.newElement := rfl
  dsimp only
  rw [hfresh, hw]
  rfl

end Stage

namespace Kernel

/-- A stage that has accepted a format for which `P` holds, and is prepared, works. -/
def SoundOn (k : Kernel) (P : Format k.input → Prop) : Prop :=
  ∀ (settings : k.Settings) (input : Format k.input) (known output : Format k.output)
    (count n workers : Nat) (plan : k.Plan), P input →
    (k.accept settings k.shape input known count).answer = .ok (output, n) →
    k.prepare settings (k.accept settings k.shape input known count).shape k.plan input output
      workers = .ok plan →
    Stage.Works (k := k) ⟨settings, (k.accept settings k.shape input known count).shape, plan,
      input, output, n, true⟩ count

def Sound (k : Kernel) : Prop := k.SoundOn fun _ => True

end Kernel

end Timbre
