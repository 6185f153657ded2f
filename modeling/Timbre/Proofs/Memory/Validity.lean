import Timbre.Proofs.Memory.Span
import Timbre.Proofs.Memory.Tables

/-! # Valid layouts

What makes a layout valid, said without the way in which it is checked. Main statement: the check
accepts exactly the valid layouts of any tree that can be built, and going over its tables it never
leaves them (`validate_iff_valid`).
-/
namespace Timbre.Memory.Tree

variable {t : Tree}

structure Valid (t : Tree) : Prop where
  ordered : t.Ordered
  items : ∀ (i j : Nat) n m, t.nodes[i]? = some n → t.nodes[j]? = some m → n.item = m.item → i = j
  placed : ∀ (i : Nat) n, t.nodes[i]? = some n → 0 < n.size →
    ∃ a, n.address = some a ∧ a + n.size ≤ maxSize
  disjoint : ∀ (i j : Nat) n m a b, i ≠ j → t.nodes[i]? = some n → t.nodes[j]? = some m →
    0 < n.size → 0 < m.size → t.Conflict i j → n.address = some a → m.address = some b →
    a + n.size ≤ b ∨ b + m.size ≤ a

theorem Conflict.symm {i j : Nat} (h : t.Conflict i j) : t.Conflict j i := by
  cases h with
  | parent h => exact .child h
  | child h => exact .parent h
  | siblings p hi hj => exact .siblings p hj hi
  | live k hi hj => exact .live k hj hi

theorem itemsDistinct_iff : t.ItemsDistinct ↔
    ∀ (i j : Nat) n m, t.nodes[i]? = some n → t.nodes[j]? = some m → n.item = m.item → i = j := by
  have hitems (i : Nat) : t.items[i]? = t.nodes[i]?.map (·.item) := by simp [items]
  constructor
  · intro h i j n m hn hm he
    have hi : i < t.items.length := by
      simpa [items] using (Array.getElem?_eq_some_iff.1 hn).1
    refine (List.getElem?_inj hi h).1 ?_
    rw [hitems, hitems, hn, hm, Option.map_some, Option.map_some, he]
  · intro h
    refine List.nodup_iff_getElem?_ne_getElem?.2 fun i j hij hj he => ?_
    have hj' : j < t.nodes.size := by simpa [items] using hj
    have hn := Array.getElem?_eq_getElem (Nat.lt_trans hij hj')
    have hm := Array.getElem?_eq_getElem hj'
    rw [hitems, hitems, hn, hm, Option.map_some, Option.map_some, Option.some.injEq] at he
    exact Nat.ne_of_lt hij (h i j _ _ hn hm he)

theorem noClash_iff_pairwise (l : Liveness) (ps : List Placed) :
    noClash l t ps = true ↔ ps.Pairwise fun p q => clash l t p q = false := by
  induction ps with
  | nil => simp [noClash]
  | cons p ps ih => simp [noClash, ih]

/-- Two ranges that may stand together: their nodes do not conflict, or they do not overlap. -/
def Apart (t : Tree) (p q : Placed) : Prop :=
  p.node ≠ q.node → t.Conflict p.node q.node → p.stop ≤ q.start ∨ q.stop ≤ p.start

instance (t : Tree) : Std.Symm t.Apart where
  symm _ _ h hne hc := (h hne.symm hc.symm).symm

section Ranges

variable (ht : t.Linked) (ho : t.Ordered)
include ht ho

theorem clash_eq_false_iff {p q : Placed} (hp : p.node < t.size) (hq : q.node < t.size) :
    clash ⟨t.spans⟩ t p q = false ↔ t.Apart p q := by
  rw [← Bool.not_eq_true, clash, Bool.and_eq_true, Bool.and_eq_true, decide_eq_true_eq,
    decide_eq_true_eq, conflicts_eq_true_iff ht ho hp hq]
  constructor
  · intro h hne hc
    by_contra hover
    exact h ⟨by omega, hne, hc⟩
  · rintro h ⟨hover, hne, hc⟩
    have := h hne hc
    omega

/-- The ranges do not clash exactly if conflicting nodes have disjoint ones. -/
theorem noClash_iff {rs : List Placed} (hr : t.ranges? = some rs) :
    noClash ⟨t.spans⟩ t rs = true ↔
      ∀ (i j : Nat) n m a b, i ≠ j → t.nodes[i]? = some n → t.nodes[j]? = some m →
        0 < n.size → 0 < m.size → t.Conflict i j → n.address = some a → m.address = some b →
        a + n.size ≤ b ∨ b + m.size ≤ a := by
  obtain ⟨hmem, hnodup⟩ := ranges?_eq_some hr
  have hlt : ∀ r ∈ rs, r.node < t.size := by
    intro r h
    obtain ⟨n, hn, -⟩ := (hmem r).1 h
    exact (Array.getElem?_eq_some_iff.1 hn).1
  rw [noClash_iff_pairwise]
  constructor
  · intro hpw i j n m a b hij hn hm hpos hpos' hc ha hb
    have hplaced := isSome_ranges?_iff.1 ⟨rs, hr⟩
    obtain ⟨a', ha', hle⟩ := hplaced i n hn hpos
    obtain ⟨b', hb', hle'⟩ := hplaced j m hm hpos'
    rw [ha] at ha'
    rw [hb] at hb'
    cases ha'
    cases hb'
    have hp := (hmem ⟨i, a, a + n.size⟩).2 ⟨n, hn, hpos, ha, hle, rfl⟩
    have hq := (hmem ⟨j, b, b + m.size⟩).2 ⟨m, hm, hpos', hb, hle', rfl⟩
    have hapart : rs.Pairwise t.Apart := hpw.imp_of_mem fun hp hq h =>
      (clash_eq_false_iff ht ho (hlt _ hp) (hlt _ hq)).1 h
    have hne : (⟨i, a, a + n.size⟩ : Placed) ≠ ⟨j, b, b + m.size⟩ :=
      fun h => hij (congrArg Placed.node h)
    exact hapart.forall hp hq hne hij hc
  · intro h
    refine hnodup.pairwise_of_forall_ne fun p hp q hq hpq => ?_
    refine (clash_eq_false_iff ht ho (hlt p hp) (hlt q hq)).2 fun hne hc => ?_
    obtain ⟨n, hn, hpos, ha, -, hstop⟩ := (hmem p).1 hp
    obtain ⟨m, hm, hpos', hb, -, hstop'⟩ := (hmem q).1 hq
    rw [hstop, hstop']
    exact h _ _ n m _ _ hne hn hm hpos hpos' hc ha hb

end Ranges

theorem validate_eq_true_iff (ht : t.Linked) : t.validate = true ↔ t.Valid := by
  unfold validate
  cases hl : t.liveness with
  | error e =>
    refine ⟨fun h => (by cases h), fun h => ?_⟩
    obtain ⟨l, hl'⟩ := (isOk_liveness_iff ht).2 h.ordered
    rw [hl] at hl'
    cases hl'
  | ok l =>
    obtain ⟨ho, rfl⟩ := (liveness_eq_ok_iff ht).1 hl
    cases hr : t.ranges? with
    | none =>
      refine ⟨fun h => (by simp at h), fun h => ?_⟩
      obtain ⟨rs, hr'⟩ := isSome_ranges?_iff.2 h.placed
      rw [hr] at hr'
      cases hr'
    | some rs =>
      simp only [Bool.and_eq_true, decide_eq_true_eq, itemsDistinct_iff, noClash_iff ht ho hr]
      constructor
      · rintro ⟨hi, hd⟩
        exact ⟨ho, hi, isSome_ranges?_iff.1 ⟨rs, hr⟩, hd⟩
      · intro h
        exact ⟨h.items, h.disjoint⟩

theorem validate_assign_iff (ht : t.Linked) (addresses : List Nat) :
    (t.assign addresses).validate = true ↔ (t.assign addresses).Valid :=
  validate_eq_true_iff (ht.of_sameLinks (sameLinks_assign t addresses))

/-- The check of a layout accepts exactly the valid ones, and leaves none of its tables. -/
theorem validate_iff_valid (h : t.Reachable) :
    t.validateByTables = .ok t.validate ∧ (t.validate = true ↔ t.Valid) :=
  ⟨validateByTables_eq h.linked, validate_eq_true_iff h.linked⟩

/-- Three stages in a row; the last one is put at the given address. -/
def threeInARow (address : Nat) : Tree where
  nodes := #[{ size := 0, item := 0, parent := none, children := [1] },
    { address := some 0, size := 4, item := 1, parent := some 0, children := [2] },
    { address := some 4, size := 4, item := 2, parent := some 1, children := [3] },
    { address := some address, size := 4, item := 3, parent := some 2, children := [] }]
  order := [0, 1, 2, 3]

theorem reachable_threeInARow (address : Nat) : (threeInARow address).Reachable := by
  have h₁ := (Reachable.ofRoot 0 0).addChild (show Tree.addChild _ 0 4 1 = .ok _ from rfl)
  have h₂ := h₁.addChild (show Tree.addChild _ 1 4 2 = .ok _ from rfl)
  have h₃ := h₂.addChild (show Tree.addChild _ 2 4 3 = .ok _ from rfl)
  have h₄ := h₃.edit (i := 1) (fun b => { b with address := some 0 }) rfl
  have h₅ := h₄.edit (i := 2) (fun b => { b with address := some 4 }) rfl
  exact h₅.edit (i := 3) (fun b => { b with address := some address }) rfl

/-- The last stage may take the place of the first, but not that of the second. -/
theorem valid_threeInARow_iff : (threeInARow 0).Valid ∧ ¬ (threeInARow 4).Valid :=
  ⟨(validate_iff_valid (reachable_threeInARow 0)).2.1 (by decide),
    fun h => absurd ((validate_iff_valid (reachable_threeInARow 4)).2.2 h) (by decide)⟩

end Timbre.Memory.Tree
