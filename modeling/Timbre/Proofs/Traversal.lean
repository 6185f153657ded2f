import Mathlib.Data.List.Basic

/-! # Steps that may fail

What one step after another, or a traversal of a list, answers when each of its steps has an answer.
Going over an array is going over its positions.
-/
namespace Timbre

universe u v w
variable {α : Type u} {β : Type v} {ε : Type w}

theorem bind_eq_ok_iff {α β : Type u} {x : Except ε α} {f : α → Except ε β} {b : β} :
    x >>= f = .ok b ↔ ∃ a, x = .ok a ∧ f a = .ok b := by
  cases x <;> simp [bind, Except.bind]

theorem bind_eq_error_iff {α β : Type u} {x : Except ε α} {f : α → Except ε β} {e : ε} :
    x >>= f = .error e ↔ x = .error e ∨ ∃ a, x = .ok a ∧ f a = .error e := by
  cases x <;> simp [bind, Except.bind]

theorem bind_pure_eq_ok {γ : Type u} {x : Except ε α} {a : α} (h : x = .ok a) (f : α → γ) :
    (x >>= fun a => pure (f a)) = .ok (f a) := by
  rw [h]
  rfl

theorem mapError_eq_ok_iff {ε' : Type w} {f : ε → ε'} {x : Except ε α} {a : α} :
    x.mapError f = .ok a ↔ x = .ok a := by
  cases x <;> simp [Except.mapError]

theorem mapError_eq_error_iff {ε' : Type w} {f : ε → ε'} {x : Except ε α} {e' : ε'} :
    x.mapError f = .error e' ↔ ∃ e, x = .error e ∧ f e = e' := by
  cases x <;> simp [Except.mapError]

theorem map_eq_ok_iff {f : α → β} {x : Except ε α} {b : β} :
    x.map f = .ok b ↔ ∃ a, x = .ok a ∧ f a = b := by
  cases x <;> simp [Except.map]

theorem mapM_eq_ok {f : α → Except ε β} {g : α → β} {xs : List α}
    (h : ∀ x ∈ xs, f x = .ok (g x)) : xs.mapM f = .ok (xs.map g) := by
  induction xs with
  | nil => rfl
  | cons x xs ih =>
    rw [List.mapM_cons, h x List.mem_cons_self, ih fun y hy => h y (List.mem_cons_of_mem x hy)]
    rfl

/-- A traversal whose steps fail in one way only fails in this way, if one of its steps does. -/
theorem mapM_eq_error {f : α → Except ε β} {e : ε} {xs : List α}
    (h : ∀ x ∈ xs, ∀ e', f x = .error e' → e' = e) (hfails : ∃ x ∈ xs, f x = .error e) :
    xs.mapM f = .error e := by
  induction xs with
  | nil => simp at hfails
  | cons x xs ih =>
    obtain ⟨hx, hxs⟩ := List.forall_mem_cons.1 h
    rw [List.mapM_cons]
    cases hstep : f x with
    | error e' =>
      rw [hx e' hstep]
      rfl
    | ok y =>
      have hrest : ∃ z ∈ xs, f z = .error e := by simpa [hstep] using hfails
      rw [ih hxs hrest]
      rfl

theorem mapM_congr {f g : α → Except ε β} {xs : List α} (h : ∀ x ∈ xs, f x = g x) :
    xs.mapM f = xs.mapM g := by
  induction xs with
  | nil => rfl
  | cons x xs ih =>
    rw [List.mapM_cons, List.mapM_cons, h x List.mem_cons_self,
      ih fun y hy => h y (List.mem_cons_of_mem x hy)]

theorem length_of_mapM_eq_ok {f : α → Except ε β} {xs : List α} {ys : List β}
    (h : xs.mapM f = .ok ys) : ys.length = xs.length := by
  induction xs generalizing ys with
  | nil =>
    cases h
    rfl
  | cons x xs ih =>
    rw [List.mapM_cons] at h
    cases hx : f x with
    | error e =>
      rw [hx] at h
      cases h
    | ok y =>
      cases hxs : xs.mapM f with
      | error e =>
        rw [hx, hxs] at h
        cases h
      | ok rest =>
        rw [hx, hxs] at h
        cases h
        exact congrArg (· + 1) (ih hxs)

theorem exists_mapM_eq_ok (Good : β → Prop) (f : α → Except ε β) (xs : List α)
    (h : ∀ x ∈ xs, ∃ y, f x = .ok y ∧ Good y) :
    ∃ ys, xs.mapM f = .ok ys ∧ ys.length = xs.length ∧ ∀ y ∈ ys, Good y := by
  induction xs with
  | nil => exact ⟨[], rfl, rfl, fun y hy => absurd hy List.not_mem_nil⟩
  | cons x xs ih =>
    obtain ⟨y, hy, hgood⟩ := h x List.mem_cons_self
    obtain ⟨ys, hys, hlen, hall⟩ := ih fun z hz => h z (List.mem_cons_of_mem x hz)
    refine ⟨y :: ys, ?_, congrArg (· + 1) hlen, List.forall_mem_cons.2 ⟨hgood, hall⟩⟩
    rw [List.mapM_cons, hy, hys]
    rfl

theorem exists_foldlM_eq_ok {σ : Type v} (Inv : σ → Prop) (f : σ → α → Except ε σ) (xs : List α)
    {s : σ} (hs : Inv s) (hf : ∀ s, Inv s → ∀ x ∈ xs, ∃ s', f s x = .ok s' ∧ Inv s') :
    ∃ s', xs.foldlM f s = .ok s' ∧ Inv s' := by
  induction xs generalizing s with
  | nil => exact ⟨s, rfl, hs⟩
  | cons x xs ih =>
    obtain ⟨s', hs', hinv⟩ := hf s hs x List.mem_cons_self
    obtain ⟨s'', hs'', hinv'⟩ := ih hinv fun s hs y hy => hf s hs y (List.mem_cons_of_mem x hy)
    refine ⟨s'', ?_, hinv'⟩
    rw [List.foldlM_cons, hs']
    exact hs''

section Loop

variable {σ : Type v} {f : σ → Nat → Except ε σ} {g : Nat → σ} {m n : Nat}

theorem foldlM_range_eq_ok (h : ∀ i < n, f (g i) i = .ok (g (i + 1))) :
    (List.range n).foldlM f (g 0) = .ok (g n) := by
  induction n with
  | zero => rfl
  | succ n ih =>
    rw [List.range_succ, List.foldlM_append, ih fun i hi => h i (Nat.lt_succ_of_lt hi)]
    simp [bind, Except.bind, pure, Except.pure, h n (Nat.lt_succ_self n)]

/-- What holds at the start and is carried on by each round holds at the end. -/
theorem exists_foldlM_range_eq_ok {s : σ} (Inv : Nat → σ → Prop) (hstart : Inv 0 s)
    (h : ∀ i < n, ∀ s, Inv i s → ∃ s', f s i = .ok s' ∧ Inv (i + 1) s') :
    ∃ s', (List.range n).foldlM f s = .ok s' ∧ Inv n s' := by
  induction n with
  | zero => exact ⟨s, rfl, hstart⟩
  | succ n ih =>
    obtain ⟨s', hs', hinv⟩ := ih fun i hi => h i (Nat.lt_succ_of_lt hi)
    obtain ⟨s'', hs'', hinv'⟩ := h n (Nat.lt_succ_self n) s' hinv
    refine ⟨s'', ?_, hinv'⟩
    rw [List.range_succ, List.foldlM_append, hs']
    simp [bind, Except.bind, pure, Except.pure, hs'']

theorem foldlM_range_eq_error {e : ε} (h : ∀ i < m, f (g i) i = .ok (g (i + 1))) (hm : m < n)
    (he : f (g m) m = .error e) : (List.range n).foldlM f (g 0) = .error e := by
  induction hm with
  | refl =>
    rw [List.range_succ, List.foldlM_append, foldlM_range_eq_ok h]
    simp [bind, Except.bind, he]
  | step _ ih =>
    rw [List.range_succ, List.foldlM_append, ih]
    rfl

end Loop

theorem filterM_eq_ok {α : Type} {p : α → Except ε Bool} {q : α → Bool} {xs : List α}
    (h : ∀ x ∈ xs, p x = .ok (q x)) : xs.filterM p = .ok (xs.filter q) := by
  have haux (acc : List α) : xs.filterAuxM p acc = .ok ((xs.filter q).reverse ++ acc) := by
    induction xs generalizing acc with
    | nil => rfl
    | cons x xs ih =>
      rw [List.filterAuxM, h x List.mem_cons_self]
      simp only [bind, Except.bind]
      rw [ih fun y hy => h y (List.mem_cons_of_mem x hy)]
      cases hq : q x <;> simp [hq]
  rw [List.filterM, haux]
  simp [bind, Except.bind, pure, Except.pure]

theorem map_eq_map_range {xs : List α} {f : α → β} {g : Nat → β}
    (h : ∀ (i : Nat) x, xs[i]? = some x → g i = f x) :
    xs.map f = (List.range xs.length).map g := by
  apply List.ext_getElem?
  intro i
  rw [List.getElem?_map, List.getElem?_map]
  by_cases hi : i < xs.length
  · have hx : xs[i]? = some xs[i] := List.getElem?_eq_getElem hi
    rw [List.getElem?_range hi, hx, Option.map_some, Option.map_some, h i _ hx]
  · have hle : xs.length ≤ i := Nat.not_lt.1 hi
    have hrange : (List.range xs.length)[i]? = none := List.getElem?_eq_none (by simpa using hle)
    rw [hrange, List.getElem?_eq_none hle, Option.map_none, Option.map_none]

theorem map_toList_eq_map_range {xs : Array α} {f : α → β} {g : Nat → β}
    (h : ∀ (i : Nat) x, xs[i]? = some x → g i = f x) :
    xs.toList.map f = (List.range xs.size).map g :=
  map_eq_map_range fun i x hx => h i x (Array.getElem?_toList.symm.trans hx)

/-- Where every list is `n` long, value `j` of list `i` stands at place `i * n + j` of all. -/
theorem getElem?_flatMap {f : α → List β} {n j : Nat} {xs : List α}
    (hlength : ∀ x ∈ xs, (f x).length = n) (hj : j < n) (i : Nat) :
    (xs.flatMap f)[i * n + j]? = xs[i]?.bind fun x => (f x)[j]? := by
  induction xs generalizing i with
  | nil => rfl
  | cons x xs ih =>
    obtain ⟨hx, hxs⟩ := List.forall_mem_cons.1 hlength
    rw [List.flatMap_cons]
    cases i with
    | zero =>
      rw [Nat.zero_mul, Nat.zero_add, List.getElem?_append_left (hx.symm ▸ hj)]
      rfl
    | succ i =>
      have hplace : (i + 1) * n + j - (f x).length = i * n + j := by
        rw [Nat.succ_mul, hx]
        omega
      rw [List.getElem?_append_right (by rw [Nat.succ_mul, hx]; omega), hplace, ih hxs]
      rfl

theorem mapM_eq_some_iff {f : α → Option β} {xs : List α} {ys : List β} :
    xs.mapM f = some ys ↔ xs.map f = ys.map some := by
  induction xs generalizing ys with
  | nil => cases ys <;> simp
  | cons x xs ih =>
    rw [List.mapM_cons]
    cases hx : f x with
    | none => cases ys <;> simp [hx]
    | some y =>
      cases hxs : xs.mapM f with
      | none =>
        cases ys with
        | nil => simp
        | cons z zs =>
          have hne : xs.map f ≠ zs.map some := fun h => by simp [ih.2 h] at hxs
          simp [hx, hne]
      | some zs => cases ys <;> simp [hx, ih.1 hxs, List.map_inj_right]

theorem exists_mapM_eq_some {f : α → Option β} {xs : List α} (h : ∀ x ∈ xs, ∃ y, f x = some y) :
    ∃ ys, xs.mapM f = some ys := by
  induction xs with
  | nil => exact ⟨[], rfl⟩
  | cons x xs ih =>
    obtain ⟨y, hy⟩ := h x List.mem_cons_self
    obtain ⟨ys, hys⟩ := ih fun z hz => h z (List.mem_cons_of_mem x hz)
    exact ⟨y :: ys, mapM_eq_some_iff.2 (by simp [hy, mapM_eq_some_iff.1 hys])⟩

end Timbre
