import Mathlib.Data.List.Permutation
import Mathlib.Order.Bounds.Basic
import Timbre.Proofs.Memory.Packing
import Timbre.Proofs.Memory.Solving

/-! # Proposals of any strategy

A strategy may propose anything. Main statements: a tree is solved exactly if its order makes sense,
its items differ, and what is proposed is a valid layout of all nodes within the limit; the first of
these that fails is the error, and whatever happens nothing but addresses changes
(`solve_ok_iff_valid`). A refusal clears the tree exactly if an address for every node was there to
be refused; where it comes to nothing before that, old addresses stay (`unplaced_iff_of_refused`).
-/
namespace Timbre.Memory

namespace Tree

variable {t : Tree}

def stops (t : Tree) : Set Nat :=
  {stop | ∃ (i : Nat) (n : Node) (start : Nat), t.nodes[i]? = some n ∧ 0 < n.size ∧
    n.range? = some (start, stop)}

/-- The footprint is the highest end, and zero if there is none. -/
theorem isLUB_footprint (t : Tree) : IsLUB t.stops t.footprint := by
  have hle (bound : Nat) : t.footprint ≤ bound ↔ bound ∈ upperBounds t.stops := by
    rw [footprint_le_iff]
    constructor
    · rintro h stop ⟨i, n, start, hn, hpos, hrange⟩
      exact h i n start stop hn hpos hrange
    · intro h i n start stop hn hpos hrange
      exact h ⟨i, n, start, hn, hpos, hrange⟩
  exact ⟨(hle _).1 (Nat.le_refl _), fun bound hbound => (hle bound).2 hbound⟩

def Unplaced (t : Tree) : Prop := ∀ (i : Nat) n, t.nodes[i]? = some n → n.address = none

theorem unplaced_clearAddresses (t : Tree) : t.clearAddresses.Unplaced :=
  fun _ _ => address_clearAddresses

end Tree

/-- The first check that fails, and what is said of it. -/
inductive Refused (strategy : Strategy) (limit : Option Nat) (t : Tree) : Error → Prop
  | order {problem : TreeProblem} : t.liveness = .error problem →
    Refused strategy limit t (.malformedTree problem)
  | items {l : Liveness} : t.liveness = .ok l → ¬ t.ItemsDistinct →
    Refused strategy limit t (.malformedTree .sharedItem)
  | count {l : Liveness} : t.liveness = .ok l → t.ItemsDistinct →
    (strategy.place t l).length ≠ t.size → Refused strategy limit t (.invalidLayout strategy.name)
  | layout {l : Liveness} : t.liveness = .ok l → t.ItemsDistinct →
    (strategy.place t l).length = t.size → ¬ (t.assign (strategy.place t l)).Valid →
      Refused strategy limit t (.invalidLayout strategy.name)
  | limit {l : Liveness} {bound : Nat} : t.liveness = .ok l → t.ItemsDistinct →
    (strategy.place t l).length = t.size → (t.assign (strategy.place t l)).Valid →
      limit = some bound → bound < (t.assign (strategy.place t l)).footprint →
        Refused strategy limit t
          (.allocationExhausted (t.assign (strategy.place t l)).footprint bound)

/-- What is proposed is a valid layout of all nodes within the limit. -/
structure Admitted (strategy : Strategy) (limit : Option Nat) (t : Tree) (l : Liveness) : Prop where
  liveness : t.liveness = .ok l
  items : t.ItemsDistinct
  length_eq : (strategy.place t l).length = t.size
  valid : (t.assign (strategy.place t l)).Valid
  within : ∀ bound, limit = some bound → (t.assign (strategy.place t l)).footprint ≤ bound

section Solve

variable {strategy : Strategy} {limit : Option Nat} {t : Tree}

theorem Admitted.proposes {l : Liveness} (h : Admitted strategy limit t l) :
    Proposes strategy t (strategy.place t l) :=
  ⟨⟨l, h.liveness, rfl⟩, h.items, h.length_eq⟩

theorem clearAddresses_solve (strategy : Strategy) (limit : Option Nat) (t : Tree) :
    (solve strategy limit t).state.clearAddresses = t.clearAddresses := by
  have hcleared : t.clearAddresses.clearAddresses = t.clearAddresses := by
    simp [Tree.clearAddresses]
  have hv := verdict_solve strategy limit t
  generalize solve strategy limit t = o at hv
  cases hv with
  | solved hp hvalid hwithin => exact Tree.clearAddresses_assign t _
  | invalid hp hvalid => exact hcleared
  | exceeded hp hvalid hlimit hbound => exact hcleared
  | _ => rfl

section Linked

variable (ht : t.Linked)
include ht

theorem solve_eq_error_iff {e : Error} :
    (solve strategy limit t).answer = .error e ↔ Refused strategy limit t e := by
  constructor
  · intro h
    have hv := verdict_solve strategy limit t
    generalize solve strategy limit t = o at h hv
    cases hv with
    | disordered hl =>
      cases h
      exact .order hl
    | shared hl hitems =>
      cases h
      exact .items hl hitems
    | uneven hl hitems hlen =>
      cases h
      exact .count hl hitems hlen
    | invalid hp hvalid =>
      cases h
      obtain ⟨⟨l, hl, rfl⟩, hitems, hlen⟩ := hp
      refine .layout hl hitems hlen fun hv => ?_
      rw [(Tree.validate_assign_iff ht _).2 hv] at hvalid
      cases hvalid
    | exceeded hp hvalid hlimit hbound =>
      cases h
      obtain ⟨⟨l, hl, rfl⟩, hitems, hlen⟩ := hp
      exact .limit hl hitems hlen ((Tree.validate_assign_iff ht _).1 hvalid) hlimit hbound
    | solved hp hvalid hwithin => cases h
  · intro h
    cases h with
    | order hl => rw [(Verdict.disordered hl).solve_eq]
    | items hl hitems => rw [(Verdict.shared hl hitems).solve_eq]
    | count hl hitems hlen => rw [(Verdict.uneven hl hitems hlen).solve_eq]
    | layout hl hitems hlen hvalid =>
      have hfalse := mt (Tree.validate_assign_iff ht _).1 hvalid
      rw [(Verdict.invalid ⟨⟨_, hl, rfl⟩, hitems, hlen⟩ (Bool.not_eq_true _ ▸ hfalse)).solve_eq]
    | limit hl hitems hlen hvalid hlimit hbound =>
      have htrue := (Tree.validate_assign_iff ht _).2 hvalid
      rw [(Verdict.exceeded ⟨⟨_, hl, rfl⟩, hitems, hlen⟩ htrue hlimit hbound).solve_eq]

theorem admitted_of_ok {layout : Layout} (h : (solve strategy limit t).answer = .ok layout) :
    ∃ l, Admitted strategy limit t l ∧
      (solve strategy limit t).state = t.assign (strategy.place t l) ∧
      layout = ⟨(t.assign (strategy.place t l)).footprint, t.unshared, strategy.name⟩ := by
  have hv := verdict_solve strategy limit t
  generalize solve strategy limit t = o at h hv
  cases hv with
  | solved hp hvalid hwithin =>
    cases h
    obtain ⟨⟨l, hl, rfl⟩, hitems, hlen⟩ := hp
    refine ⟨l, ⟨hl, hitems, hlen, (Tree.validate_assign_iff ht _).1 hvalid, hwithin⟩, rfl, ?_⟩
    rw [Tree.unshared_assign]
  | _ => cases h

theorem Admitted.exists_ok {l : Liveness} (h : Admitted strategy limit t l) :
    ∃ layout, (solve strategy limit t).answer = .ok layout :=
  have htrue := (Tree.validate_assign_iff ht _).2 h.valid
  ⟨_, congrArg Outcome.answer (Verdict.solved h.proposes htrue h.within).solve_eq⟩

end Linked

/-- A strategy may propose anything: the tree is solved exactly if what is proposed is admitted, and
then it has these addresses; otherwise the first check that fails is the error. Nothing but
addresses changes either way. -/
theorem solve_ok_iff_valid (h : t.Reachable) (strategy : Strategy) (limit : Option Nat) :
    ((∃ layout, (solve strategy limit t).answer = .ok layout) ↔
        ∃ l, Admitted strategy limit t l) ∧
      (∀ e, (solve strategy limit t).answer = .error e ↔ Refused strategy limit t e) ∧
      (∀ layout, (solve strategy limit t).answer = .ok layout → ∃ l, t.liveness = .ok l ∧
        (solve strategy limit t).state.addresses = (strategy.place t l).map some ∧
        IsLUB (solve strategy limit t).state.stops layout.footprint ∧
        layout.unshared = (t.nodes.toList.map (·.size)).sum ∧ layout.strategy = strategy.name) ∧
      (∀ addresses, IsLUB (t.assign addresses).stops (t.assign addresses).footprint) ∧
      (solve strategy limit t).state.clearAddresses = t.clearAddresses := by
  have ht := h.linked
  refine ⟨?_, fun e => solve_eq_error_iff ht, ?_, fun _ => Tree.isLUB_footprint _,
    clearAddresses_solve strategy limit t⟩
  · constructor
    · rintro ⟨layout, hok⟩
      obtain ⟨l, hl, -, -⟩ := admitted_of_ok ht hok
      exact ⟨l, hl⟩
    · rintro ⟨l, hl⟩
      exact hl.exists_ok ht
  · intro layout hok
    obtain ⟨l, hl, hstate, rfl⟩ := admitted_of_ok ht hok
    rw [hstate]
    exact ⟨l, hl.liveness, Tree.addresses_assign hl.length_eq, Tree.isLUB_footprint _,
      Tree.unshared_eq_sum t, rfl⟩

end Solve

def Strategy.fixed (addresses : List Nat) : Strategy := ⟨"fixed", fun _ _ => addresses⟩

/-- Three stages in a row are solved by giving the last one the memory of the first, unless eight
bytes are too many. -/
theorem solve_fixed :
    (∃ layout, (solve (.fixed [0, 0, 4, 0]) (some 8) (Tree.threeInARow 4)).answer = .ok layout) ∧
      (solve (.fixed [0, 0, 4, 0]) (some 7) (Tree.threeInARow 4)).answer =
        .error (.allocationExhausted 8 7) := by
  have ht := Tree.reachable_threeInARow 4
  have hl : (Tree.threeInARow 4).liveness = .ok ⟨(Tree.threeInARow 4).spans⟩ := by decide
  have hvalid : ((Tree.threeInARow 4).assign [0, 0, 4, 0]).Valid :=
    (Tree.validate_assign_iff ht.linked _).1 (by decide)
  have h := solve_ok_iff_valid ht (.fixed [0, 0, 4, 0])
  exact ⟨(h (some 8)).1.2 ⟨_, hl, by decide, by decide, hvalid, by decide⟩,
    ((h (some 7)).2.1 _).2 (.limit hl (by decide) (by decide) hvalid rfl (by decide))⟩

section Refusal

variable {strategy : Strategy} {limit : Option Nat} {t : Tree} {e : Error}

theorem state_of_error (h : (solve strategy limit t).answer = .error e) :
    ((∃ addresses, Proposes strategy t addresses) ∧
        (solve strategy limit t).state = t.clearAddresses) ∨
      (¬ ∃ addresses, Proposes strategy t addresses) ∧ (solve strategy limit t).state = t := by
  have hv := verdict_solve strategy limit t
  generalize solve strategy limit t = o at h hv
  cases hv with
  | disordered hl =>
    refine .inr ⟨?_, rfl⟩
    rintro ⟨_, ⟨l, hl', -⟩, -, -⟩
    rw [hl] at hl'
    cases hl'
  | shared hl hitems => exact .inr ⟨fun ⟨_, hp⟩ => hitems hp.items, rfl⟩
  | uneven hl hitems hlen =>
    refine .inr ⟨?_, rfl⟩
    rintro ⟨_, ⟨l, hl', rfl⟩, -, hlen'⟩
    rw [hl] at hl'
    cases hl'
    exact hlen hlen'
  | invalid hp hvalid => exact .inl ⟨⟨_, hp⟩, rfl⟩
  | exceeded hp hvalid hlimit hbound => exact .inl ⟨⟨_, hp⟩, rfl⟩
  | solved hp hvalid hwithin => cases h

/-- What a refusal leaves: a tree without addresses if there was one for every node to refuse, and
otherwise the tree as it was. -/
theorem unplaced_iff_of_refused (h : (solve strategy limit t).answer = .error e) :
    ((solve strategy limit t).state = t.clearAddresses ∨ (solve strategy limit t).state = t) ∧
      ((solve strategy limit t).state.Unplaced ↔
        (∃ addresses, Proposes strategy t addresses) ∨ t.Unplaced) := by
  rcases state_of_error h with ⟨hp, hstate⟩ | ⟨hp, hstate⟩
  · rw [hstate]
    exact ⟨.inl rfl, fun _ => .inl hp, fun _ => t.unplaced_clearAddresses⟩
  · rw [hstate]
    exact ⟨.inr rfl, (or_iff_right hp).symm⟩

/-- Over the limit, nothing has an address any more. -/
theorem unplaced_threeInARow :
    (solve .firstFit (some 7) (Tree.threeInARow 0)).answer = .error (.allocationExhausted 8 7) ∧
      (solve .firstFit (some 7) (Tree.threeInARow 0)).state.Unplaced := by
  have hrefused : (solve .firstFit (some 7) (Tree.threeInARow 0)).answer =
      .error (.allocationExhausted 8 7) := by cbv
  exact ⟨hrefused, (unplaced_iff_of_refused hrefused).2.2 (.inl ⟨_, ⟨_, rfl, rfl⟩, by decide, rfl⟩)⟩

/-- Three refusals that keep the addresses from before: the order leaves a stage out, two stages
share an item, and there are too few addresses. -/
theorem placed_of_refused :
    ((solve .firstFit none ((Tree.threeInARow 0).setOrder [0, 1, 2])).answer =
        .error (.malformedTree .notEveryNode) ∧
      ¬ (solve .firstFit none ((Tree.threeInARow 0).setOrder [0, 1, 2])).state.Unplaced) ∧
    (∃ t, (Tree.threeInARow 0).edit 2 (fun b => { b with item := 1 }) = .ok t ∧
      (solve .firstFit none t).answer = .error (.malformedTree .sharedItem) ∧
      ¬ (solve .firstFit none t).state.Unplaced) ∧
    (solve (.fixed [0]) none (Tree.threeInARow 0)).answer = .error (.invalidLayout "fixed") ∧
      ¬ (solve (.fixed [0]) none (Tree.threeInARow 0)).state.Unplaced := by
  have hplaced {t : Tree} (h : t.nodes[1]?.bind (·.address) = some 0) : ¬ t.Unplaced := by
    intro hnone
    obtain ⟨n, hn, hn0⟩ := Option.bind_eq_some_iff.1 h
    rw [hnone 1 n hn] at hn0
    cases hn0
  exact ⟨⟨by decide, hplaced (by decide)⟩,
    ⟨_, rfl, by decide, hplaced (by decide)⟩, by decide, hplaced (by decide)⟩

end Refusal

end Timbre.Memory
