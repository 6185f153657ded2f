import Mathlib.Data.List.Forall2
import Timbre.Proofs.Kernel.Soundness
import Timbre.Proofs.Traversal

/-! # Work piece by piece

The elements that come from several signals stand one after the other: as many pieces as there are
signals, all of one length. A stage separates the pieces if it writes for all of them together what
it writes for each on its own, one result after the other. No piece may then reach into another one,
and what is left in the scratch values after a piece may not be seen in the next.
-/
namespace Timbre

section SideBySide

variable {α β γ : Type} {R : α → β → Prop}

theorem forall₂_comp_iff {S : β → γ → Prop} {xs : List α} {zs : List γ} :
    List.Forall₂ (fun x z => ∃ y, R x y ∧ S y z) xs zs ↔
      ∃ ys, List.Forall₂ R xs ys ∧ List.Forall₂ S ys zs := by
  constructor
  · intro h
    induction h with
    | nil => exact ⟨[], .nil, .nil⟩
    | cons hx _ ih =>
      obtain ⟨y, hxy, hyz⟩ := hx
      obtain ⟨ys, hxs, hzs⟩ := ih
      exact ⟨y :: ys, .cons hxy hxs, .cons hyz hzs⟩
  · rintro ⟨ys, hxs, hzs⟩
    induction hxs generalizing zs with
    | nil =>
      cases hzs
      exact .nil
    | cons hxy _ ih =>
      cases hzs with
      | cons hyz hzs => exact .cons ⟨_, hxy, hyz⟩ (ih hzs)

theorem forall₂_map_iff {f : β → γ} {xs : List α} {zs : List γ} :
    List.Forall₂ (fun x z => ∃ y, R x y ∧ z = f y) xs zs ↔
      ∃ ys, List.Forall₂ R xs ys ∧ zs = ys.map f := by
  have hgraph (ys : List β) : List.Forall₂ (fun y z => z = f y) ys zs ↔ zs = ys.map f := by
    rw [eq_comm, ← List.forall₂_eq_eq_eq, List.forall₂_map_left_iff]
    simp only [eq_comm]
  simp only [forall₂_comp_iff, hgraph]

theorem exists_of_mem_forall₂ {xs : List α} {ys : List β} (h : List.Forall₂ R xs ys) {y : β}
    (hy : y ∈ ys) : ∃ x ∈ xs, R x y := by
  induction h with
  | nil => cases hy
  | cons hx _ ih =>
    rcases List.mem_cons.1 hy with rfl | hy
    · exact ⟨_, List.mem_cons_self, hx⟩
    · obtain ⟨x, hmem, hxy⟩ := ih hy
      exact ⟨x, List.mem_cons_of_mem _ hmem, hxy⟩

theorem pairwise_of_forall₂ {P : α → α → Prop} {Q : β → β → Prop} {xs : List α} {ys : List β}
    (h : List.Forall₂ R xs ys) (hxs : xs.Pairwise P)
    (hstep : ∀ x x' y y', R x y → R x' y' → P x x' → Q y y') : ys.Pairwise Q := by
  induction h with
  | nil => exact .nil
  | cons hxy hrest ih =>
    obtain ⟨hhead, htail⟩ := List.pairwise_cons.1 hxs
    refine List.pairwise_cons.2 ⟨fun y' hy' => ?_, ih htail⟩
    obtain ⟨x', hx', hxy'⟩ := exists_of_mem_forall₂ hrest hy'
    exact hstep _ _ _ _ hxy hxy' (hhead x' hx')

theorem forall₂_imp {S : α → β → Prop} {xs : List α} {ys : List β}
    (h : ∀ x ∈ xs, ∀ y, R x y → S x y) (hxs : List.Forall₂ R xs ys) : List.Forall₂ S xs ys := by
  have hmem : List.Forall₂ (fun x y => x ∈ xs ∧ R x y) xs ys :=
    (List.forall₂_and_left _ _).2 ⟨fun _ hx => hx, hxs⟩
  exact hmem.imp fun x y hxy => h x hxy.1 y hxy.2

theorem forall₂_congr {S : α → β → Prop} {xs : List α} {ys : List β}
    (h : ∀ x ∈ xs, ∀ y, R x y ↔ S x y) : List.Forall₂ R xs ys ↔ List.Forall₂ S xs ys :=
  ⟨forall₂_imp fun x hx y => (h x hx y).1, forall₂_imp fun x hx y => (h x hx y).2⟩

theorem forall₂_append_iff {xs xs' : List α} {ys : List β} :
    List.Forall₂ R (xs ++ xs') ys ↔
      ∃ l l', List.Forall₂ R xs l ∧ List.Forall₂ R xs' l' ∧ ys = l ++ l' := by
  induction xs generalizing ys with
  | nil => simp
  | cons x xs ih =>
    simp only [List.cons_append, List.forall₂_cons_left_iff, ih]
    constructor
    · rintro ⟨y, _, hxy, ⟨l, l', hl, hl', rfl⟩, rfl⟩
      exact ⟨y :: l, l', ⟨y, l, hxy, hl, rfl⟩, hl', rfl⟩
    · rintro ⟨_, l', ⟨y, l, hxy, hl, rfl⟩, hl', rfl⟩
      exact ⟨y, l ++ l', hxy, ⟨l, l', hl, hl', rfl⟩, rfl⟩

theorem forall₂_flatMap_iff {f : γ → List α} {xs : List γ} {ys : List β} :
    List.Forall₂ R (xs.flatMap f) ys ↔
      ∃ ls, List.Forall₂ (fun x l => List.Forall₂ R (f x) l) xs ls ∧ ys = ls.flatten := by
  induction xs generalizing ys with
  | nil => simp
  | cons x xs ih =>
    simp only [List.flatMap_cons, forall₂_append_iff, List.forall₂_cons_left_iff, ih]
    constructor
    · rintro ⟨l, _, hl, ⟨ls, hls, rfl⟩, rfl⟩
      exact ⟨l :: ls, ⟨l, ls, hl, hls, rfl⟩, rfl⟩
    · rintro ⟨_, ⟨l, ls, hl, hls, rfl⟩, rfl⟩
      exact ⟨l, ls.flatten, hl, ⟨ls, hls, rfl⟩, rfl⟩

end SideBySide

namespace Samples

variable {α β σ : Type} {f : σ → α → β → Except Fault (β × σ)}

theorem flatten_cons (p : Array α) (pieces : List (Array α)) :
    (p :: pieces).toArray.flatten = p ++ pieces.toArray.flatten := by
  simp [Array.flatten_toArray]

theorem flatten_map_flatten (ls : List (List (List α))) :
    (ls.map fun l => l.flatten.toArray).toArray.flatten = ls.flatten.flatten.toArray := by
  have htoList : (Array.toList ∘ fun l : List (List α) => l.flatten.toArray) = List.flatten := rfl
  rw [Array.flatten_toArray, List.map_map, htoList, List.flatten_flatten]

theorem zipWithM_cons_eq_ok_iff {s t : σ} {a : α} {as : List α} {b : β} {bs ys : List β} :
    zipWithM f s (a :: as) (b :: bs) = .ok (ys, t) ↔ ∃ y u rest,
      f s a b = .ok (y, u) ∧ zipWithM f u as bs = .ok (rest, t) ∧ ys = y :: rest := by
  rw [zipWithM]
  constructor
  · intro h
    split at h
    · cases h
    · rename_i y u hy
      split at h
      · cases h
      · rename_i rest v hrest
        cases h
        exact ⟨y, u, rest, hy, hrest, rfl⟩
  · rintro ⟨y, u, rest, hy, hrest, rfl⟩
    rw [hy]
    dsimp only
    rw [hrest]

/-- Steps whose answers do not depend on the state, as long as it keeps an invariant, answer side by
side what each answers alone. -/
theorem exists_zipWithM_replicate_iff (Inv : σ → Prop) {R : α → β → Prop} {as : List α} {b : β}
    {ys : List β} {s : σ} (hs : Inv s)
    (hf : ∀ s, Inv s → ∀ a ∈ as, ∀ y, (∃ t, f s a b = .ok (y, t)) ↔ R a y)
    (hinv : ∀ s, Inv s → ∀ a ∈ as, ∀ y t, f s a b = .ok (y, t) → Inv t) :
    (∃ t, zipWithM f s as (List.replicate as.length b) = .ok (ys, t)) ↔ List.Forall₂ R as ys := by
  induction as generalizing s ys with
  | nil => cases ys <;> simp [zipWithM]
  | cons a as ih =>
    rw [List.length_cons, List.replicate_succ, List.forall₂_cons_left_iff]
    simp only [zipWithM_cons_eq_ok_iff]
    have hstep {y : β} {u : σ} (hu : f s a b = .ok (y, u)) (rest : List β) :
        (∃ t, zipWithM f u as (List.replicate as.length b) = .ok (rest, t)) ↔
          List.Forall₂ R as rest :=
      ih (hinv s hs a List.mem_cons_self y u hu)
        (fun s hs a ha => hf s hs a (List.mem_cons_of_mem _ ha))
        fun s hs a ha => hinv s hs a (List.mem_cons_of_mem _ ha)
    constructor
    · rintro ⟨t, y, u, rest, hu, hrest, rfl⟩
      exact ⟨y, rest, (hf s hs a List.mem_cons_self y).1 ⟨u, hu⟩, (hstep hu rest).1 ⟨t, hrest⟩, rfl⟩
    · rintro ⟨y, rest, hy, hrest, rfl⟩
      obtain ⟨u, hu⟩ := (hf s hs a List.mem_cons_self y).2 hy
      obtain ⟨t, ht⟩ := (hstep hu rest).2 hrest
      exact ⟨t, y, u, rest, hu, ht, rfl⟩

theorem exists_zipWithM_unit_iff {f : Unit → α → β → Except Fault (β × Unit)} {R : α → β → Prop}
    (as : List α) (b : β) (ys : List β)
    (hf : ∀ a ∈ as, ∀ y, (∃ t, f () a b = .ok (y, t)) ↔ R a y) :
    (∃ t, zipWithM f () as (List.replicate as.length b) = .ok (ys, t)) ↔ List.Forall₂ R as ys :=
  exists_zipWithM_replicate_iff (fun _ => True) trivial (fun _ _ => hf)
    fun _ _ _ _ _ _ _ => trivial

end Samples

theorem Format.fitsAll_flatten {k : Kind} {f : Format k} {count : Nat}
    {pieces : List (Array k.Element)} (h : ∀ p ∈ pieces, f.FitsAll count p) :
    f.FitsAll (pieces.length * count) pieces.toArray.flatten := by
  induction pieces with
  | nil =>
    rw [List.length_nil, Nat.zero_mul]
    exact ⟨rfl, fun x hx => absurd hx (Array.not_mem_empty x)⟩
  | cons p pieces ih =>
    obtain ⟨hsize, hfits⟩ := h p List.mem_cons_self
    obtain ⟨hsizes, hall⟩ := ih fun q hq => h q (List.mem_cons_of_mem _ hq)
    rw [Samples.flatten_cons]
    constructor
    · rw [Array.size_append, hsize, hsizes, List.length_cons, Nat.succ_mul, Nat.add_comm]
    · intro x hx
      rcases Array.mem_append.1 hx with hx | hx
      · exact hfits x hx
      · exact hall x hx

/-- An element is written alike over every plan that the invariant holds of, and leaves such a plan.
-/
def SameOver {In Out Plan : Type} (run : Plan → In → Out → Except Fault (Written Out Plan))
    (Inv : Plan → Prop) (out : Out) (x : In) : Prop :=
  ∀ p q, Inv p → Inv q → ∀ w, run p x out = .ok w →
    Inv w.plan ∧ ∃ w', run q x out = .ok w' ∧ w'.output = w.output

namespace Stage

variable {k : Kernel} {s : Stage k} {count : Nat} {xs : Array k.input.Element}
  {ys : Array k.output.Element}

/-- The stage with `m` times as many output elements. -/
def times (s : Stage k) (m : Nat) : Stage k := { s with count := m * s.count }

/-- What the stage writes over fresh outputs. -/
def Writes (s : Stage k) (xs : Array k.input.Element) (ys : Array k.output.Element) : Prop :=
  ∃ w, s.work xs s.freshOutputs.elements = .ok w ∧ w.output = ys

/-- The stage is for pieces of so many elements. Several pieces together are written as each is on
its own. -/
structure Separates (s : Stage k) (count : Nat) : Prop where
  writes_flatten : ∀ pieces : List (Array k.input.Element),
    (∀ p ∈ pieces, s.input.FitsAll count p) → ∀ ys,
      (s.times pieces.length).Writes pieces.toArray.flatten ys ↔
        ∃ outs, List.Forall₂ s.Writes pieces outs ∧ ys = outs.toArray.flatten
  fits : ∀ xs ys, s.input.FitsAll count xs → s.Writes xs ys → s.output.FitsAll s.count ys

theorem times_one : s.times 1 = s := by
  unfold times
  rw [Nat.one_mul]

theorem Works.fits (h : s.Works count) (hxs : s.input.FitsAll count xs) (hys : s.Writes xs ys) :
    s.output.FitsAll s.count ys := by
  obtain ⟨w, hw, hfits⟩ := h xs hxs
  obtain ⟨w', hw', rfl⟩ := hys
  rw [hw] at hw'
  cases hw'
  exact hfits

/-- A stage separates pieces if it takes what it reads item by item, and the items of several pieces
are those of the pieces. -/
theorem writes_flatten_of_items {ι : Type} (items : Array k.input.Element → List ι)
    (R : ι → List k.output.Element → Prop)
    (hitems : ∀ pieces : List (Array k.input.Element), (∀ p ∈ pieces, s.input.FitsAll count p) →
      items pieces.toArray.flatten = pieces.flatMap items)
    (hwrites : ∀ m xs, s.input.FitsAll (m * count) xs → ∀ ys,
      (s.times m).Writes xs ys ↔ ∃ ls, List.Forall₂ R (items xs) ls ∧ ys = ls.flatten.toArray)
    (pieces : List (Array k.input.Element)) (hpieces : ∀ p ∈ pieces, s.input.FitsAll count p)
    (ys : Array k.output.Element) :
    (s.times pieces.length).Writes pieces.toArray.flatten ys ↔
      ∃ outs, List.Forall₂ s.Writes pieces outs ∧ ys = outs.toArray.flatten := by
  have hpiece : ∀ p ∈ pieces, ∀ out, s.Writes p out ↔
      ∃ ls, List.Forall₂ R (items p) ls ∧ out = ls.flatten.toArray := by
    intro p hp out
    have hfits : s.input.FitsAll (1 * count) p := (Nat.one_mul count).symm ▸ hpieces p hp
    rw [← hwrites 1 p hfits out, times_one]
  simp only [hwrites _ _ (Format.fitsAll_flatten hpieces), hitems pieces hpieces,
    forall₂_congr hpiece, forall₂_flatMap_iff, forall₂_map_iff]
  constructor
  · rintro ⟨_, ⟨ls, hls, rfl⟩, rfl⟩
    exact ⟨_, ⟨ls, hls, rfl⟩, (Samples.flatten_map_flatten ls).symm⟩
  · rintro ⟨_, ⟨ls, hls, rfl⟩, rfl⟩
    exact ⟨_, ⟨ls, hls, rfl⟩, Samples.flatten_map_flatten ls⟩

theorem writes_flatten_of_singles {ι : Type} (items : Array k.input.Element → List ι)
    (R : ι → k.output.Element → Prop)
    (hitems : ∀ pieces : List (Array k.input.Element), (∀ p ∈ pieces, s.input.FitsAll count p) →
      items pieces.toArray.flatten = pieces.flatMap items)
    (hwrites : ∀ m xs, s.input.FitsAll (m * count) xs → ∀ ys,
      (s.times m).Writes xs ys ↔ List.Forall₂ R (items xs) ys.toList)
    (pieces : List (Array k.input.Element)) (hpieces : ∀ p ∈ pieces, s.input.FitsAll count p)
    (ys : Array k.output.Element) :
    (s.times pieces.length).Writes pieces.toArray.flatten ys ↔
      ∃ outs, List.Forall₂ s.Writes pieces outs ∧ ys = outs.toArray.flatten := by
  refine writes_flatten_of_items items (fun x l => ∃ y, R x y ∧ l = [y]) hitems ?_ pieces hpieces ys
  intro m xs hxs ys
  have hsingles (outs : List k.output.Element) : (outs.map fun y => [y]).flatten = outs := by
    rw [← List.flatMap_def, List.flatMap_singleton']
  rw [hwrites m xs hxs ys]
  simp only [forall₂_map_iff (f := fun y => [y])]
  constructor
  · intro h
    exact ⟨_, ⟨ys.toList, h, rfl⟩, by rw [hsingles]⟩
  · rintro ⟨_, ⟨outs, houts, rfl⟩, rfl⟩
    rw [hsingles]
    exact houts

theorem writes_iff_of_wholeBatch
    {run : k.Settings → k.Shape → k.Plan → Array k.input.Element → Array k.output.Element →
      Except Fault (Written (Array k.output.Element) k.Plan)}
    (hwork : k.work = .wholeBatch run) : s.Writes xs ys ↔ ∃ w,
      run s.settings s.shape s.plan xs (Array.replicate s.count s.output.newElement) = .ok w ∧
        w.output = ys := by
  unfold Writes work
  rw [hwork]
  simp only [mapError_eq_ok_iff]
  rfl

theorem exists_workEach_replicate_iff {In Out Plan : Type}
    {run : Plan → In → Out → Except Fault (Written Out Plan)} {Inv : Plan → Prop} {plan : Plan}
    (hplan : Inv plan) {b : Out} {inputs : Array In} (outs : Array Out)
    (hrun : ∀ x ∈ inputs, SameOver run Inv b x) :
    (∃ w, workEach run plan inputs (Array.replicate inputs.size b) = .ok w ∧ w.output = outs) ↔
      List.Forall₂ (fun x y => ∃ w, run plan x b = .ok w ∧ w.output = y)
        inputs.toList outs.toList := by
  have hstep (p : Progress Plan) (x : In) (y : Out) :
      (∃ t, eachStep run p x b = .ok (y, t)) ↔ ∃ w, run p.plan x b = .ok w ∧ w.output = y := by
    rw [eachStep_eq_map]
    cases run p.plan x b <;> simp [Except.map]
  rw [← Samples.exists_zipWithM_replicate_iff (f := eachStep run) (b := b) (s := ⟨plan, []⟩)
    (fun p => Inv p.plan) hplan]
  · rw [workEach_eq, Array.toList_replicate, Array.length_toList]
    cases Samples.zipWithM (eachStep run) ⟨plan, []⟩ inputs.toList
      (List.replicate inputs.size b) with
    | error e => simp [Except.map]
    | ok r => simp [Except.map, Prod.ext_iff, ← Array.toList_inj]
  · intro p hp x hx y
    have hx := Array.mem_toList_iff.1 hx
    rw [hstep]
    constructor
    · rintro ⟨w, hw, rfl⟩
      exact (hrun x hx p.plan plan hp hplan w hw).2
    · rintro ⟨w, hw, rfl⟩
      exact (hrun x hx plan p.plan hplan hp w hw).2
  · intro p hp x hx y t ht
    rw [eachStep_eq_map] at ht
    cases hw : run p.plan x b with
    | error e =>
      rw [hw] at ht
      cases ht
    | ok w =>
      rw [hw] at ht
      cases ht
      exact (hrun x (Array.mem_toList_iff.1 hx) p.plan p.plan hp hp w hw).1

section PerElement

variable {run : k.Settings → k.Shape → k.Plan → k.input.Element → k.output.Element →
    Except Fault (Written k.output.Element k.Plan)} {Inv : k.Plan → Prop}
  (hwork : k.work = .perElement run) (hplan : Inv s.plan)
  (hrun : ∀ x, s.input.Fits x → SameOver (run s.settings s.shape) Inv s.output.newElement x)
include hwork hplan hrun

theorem writes_iff_of_perElement (hxs : s.input.FitsAll s.count xs) :
    s.Writes xs ys ↔ List.Forall₂ (fun x y => ∃ w,
      run s.settings s.shape s.plan x s.output.newElement = .ok w ∧ w.output = y)
        xs.toList ys.toList := by
  have hfresh : s.freshOutputs.elements = Array.replicate xs.size s.output.newElement :=
    hxs.1 ▸ rfl
  rw [← exists_workEach_replicate_iff hplan ys fun x hx => hrun x (hxs.2 x hx)]
  unfold Writes work
  rw [hwork, hfresh]
  simp only [Array.size_replicate, if_true, mapError_eq_ok_iff]

theorem fits_of_perElement
    (hgood : ∀ x w, run s.settings s.shape s.plan x s.output.newElement = .ok w →
      s.output.Fits w.output) (hxs : s.input.FitsAll s.count xs) (hys : s.Writes xs ys) :
    s.output.FitsAll s.count ys := by
  have hall := (writes_iff_of_perElement hwork hplan hrun hxs).1 hys
  refine ⟨hall.length_eq.symm.trans hxs.1, fun y hy => ?_⟩
  obtain ⟨x, -, w, hw, rfl⟩ := exists_of_mem_forall₂ hall (Array.mem_toList_iff.2 hy)
  exact hgood x w hw

theorem separates_of_perElement
    (hfits : ∀ xs ys, s.input.FitsAll s.count xs → s.Writes xs ys →
      s.output.FitsAll s.count ys) : s.Separates s.count := by
  refine ⟨writes_flatten_of_singles Array.toList (fun x y => ∃ w,
    run s.settings s.shape s.plan x s.output.newElement = .ok w ∧ w.output = y) ?_ ?_, hfits⟩
  · intro pieces _
    rw [Array.toList_flatten, List.flatMap_def]
  · intro m xs hxs ys
    exact writes_iff_of_perElement (s := s.times m) hwork hplan hrun hxs

end PerElement

end Stage

namespace Kernel

/-- What is accepted does not depend on the number of elements, and as many are written as there
are. -/
def PassesCount (k : Kernel) : Prop :=
  ∀ settings (input : Format k.input) (known output : Format k.output) count n,
    (k.accept settings k.shape input known count).answer = .ok (output, n) →
      n = count ∧ ∀ m, (k.accept settings k.shape input known m).answer = .ok (output, m) ∧
        (k.accept settings k.shape input known m).shape =
          (k.accept settings k.shape input known count).shape

/-- Whatever a stage of the kernel writes has the promised shape. -/
def Fitting (k : Kernel) : Prop :=
  ∀ settings (input : Format k.input) (known output : Format k.output) count n workers plan,
    (k.accept settings k.shape input known count).answer = .ok (output, n) →
    k.prepare settings (k.accept settings k.shape input known count).shape k.plan input output
      workers = .ok plan →
    ∀ xs ys, input.FitsAll count xs →
      Stage.Writes (k := k) ⟨settings, (k.accept settings k.shape input known count).shape, plan,
        input, output, n, true⟩ xs ys → output.FitsAll n ys

/-- What is accepted for some number of elements is accepted for every multiple of this number, and
gives the multiple. A stage that has accepted something can be prepared, and then separates pieces
of so many elements. -/
structure Separable (k : Kernel) : Prop where
  accept_times : ∀ settings (input : Format k.input) (known output : Format k.output) count n m,
    (k.accept settings k.shape input known count).answer = .ok (output, n) →
      (k.accept settings k.shape input known (m * count)).answer = .ok (output, m * n) ∧
        (k.accept settings k.shape input known (m * count)).shape =
          (k.accept settings k.shape input known count).shape
  exists_prepare : ∀ settings (input : Format k.input) (known output : Format k.output) count n
    workers, (k.accept settings k.shape input known count).answer = .ok (output, n) →
      ∃ plan, k.prepare settings (k.accept settings k.shape input known count).shape k.plan input
        output workers = .ok plan ∧
          Stage.Separates (k := k) ⟨settings, (k.accept settings k.shape input known count).shape,
            plan, input, output, n, true⟩ count

variable {k : Kernel}

theorem Sound.fitting (h : k.Sound) : k.Fitting :=
  fun settings input known output count n workers plan haccept hprepare _ _ hxs hys =>
    (h settings input known output count n workers plan trivial haccept hprepare).fits hxs hys

theorem passesCount_of_answer
    {format : k.Settings → Format k.input → Format k.output → Format k.output}
    (hanswer : ∀ settings input known count,
      (k.accept settings k.shape input known count).answer =
        .ok (format settings input known, count))
    (hshape : ∀ settings input known count,
      (k.accept settings k.shape input known count).shape = k.shape) : k.PassesCount := by
  intro settings input known output count n h
  rw [hanswer] at h
  cases h
  refine ⟨rfl, fun m => ⟨hanswer settings input known m, ?_⟩⟩
  rw [hshape, hshape]

theorem separable_of_perElement
    {run : k.Settings → k.Shape → k.Plan → k.input.Element → k.output.Element →
      Except Fault (Written k.output.Element k.Plan)}
    (hwork : k.work = .perElement run) (hcount : k.PassesCount) (hfitting : k.Fitting)
    (hprepare : ∀ settings (input : Format k.input) (known output : Format k.output) count workers,
      (k.accept settings k.shape input known count).answer = .ok (output, count) →
        ∃ plan, k.prepare settings (k.accept settings k.shape input known count).shape k.plan input
          output workers = .ok plan ∧ ∃ Inv : k.Plan → Prop, Inv plan ∧
            ∀ x, input.Fits x →
              SameOver (run settings (k.accept settings k.shape input known count).shape) Inv
                output.newElement x) : k.Separable := by
  refine ⟨fun settings input known output count n m haccept => ?_,
    fun settings input known output count n workers haccept => ?_⟩
  · obtain ⟨rfl, hm⟩ := hcount settings input known output count n haccept
    exact hm (m * n)
  · obtain ⟨rfl, -⟩ := hcount settings input known output count n haccept
    obtain ⟨plan, hplan, Inv, hinv, hrun⟩ :=
      hprepare settings input known output n workers haccept
    exact ⟨plan, hplan, Stage.separates_of_perElement hwork hinv hrun
      (hfitting settings input known output n n workers plan haccept hplan)⟩

theorem separable_of_plain
    {run : k.Settings → k.Shape → k.Plan → k.input.Element → k.output.Element →
      Except Fault (Written k.output.Element k.Plan)}
    (hwork : k.work = .perElement run) (hplan : ∀ p q : k.Plan, p = q)
    (hprepare : ∀ settings shape plan input output workers,
      k.prepare settings shape plan input output workers = .ok plan)
    (hcount : k.PassesCount) (hsound : k.Sound) : k.Separable := by
  refine separable_of_perElement hwork hcount hsound.fitting
    fun settings input known output count workers _ =>
      ⟨k.plan, hprepare _ _ _ _ _ _, fun _ => True, trivial, fun x _ p q _ _ w hw => ?_⟩
  exact ⟨trivial, w, hplan p q ▸ hw, rfl⟩

end Kernel

end Timbre
