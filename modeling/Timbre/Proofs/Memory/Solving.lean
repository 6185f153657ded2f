import Timbre.Proofs.Memory.Links

/-! # Solved trees

Solving a tree ends in one of six ways: the first check that fails decides, and if none does the
tree is solved. A tree that was solved is the tree from before with addresses, and it has passed the
check. The layout that is reported is that of the tree, and it is within the limit.
-/
namespace Timbre.Memory

namespace Tree

variable {t : Tree} {addresses : List Nat}

theorem clearAddresses_assign (t : Tree) (addresses : List Nat) :
    (t.assign addresses).clearAddresses = t.clearAddresses := by
  simp only [clearAddresses, assign, Tree.mk.injEq, and_true]
  apply Array.ext_getElem?
  intro i
  cases hn : t.nodes[i]? <;> simp [hn]

theorem address_clearAddresses {i : Nat} {n : Node} (h : t.clearAddresses.nodes[i]? = some n) :
    n.address = none := by
  simp only [clearAddresses, Array.getElem?_map] at h
  obtain ⟨m, -, rfl⟩ := Option.map_eq_some_iff.1 h
  rfl

theorem addresses_assign (h : addresses.length = t.size) :
    (t.assign addresses).addresses = addresses.map some := by
  apply List.ext_getElem?
  intro i
  have hi : i < t.nodes.size ↔ i < addresses.length := by rw [h]; rfl
  by_cases hlt : i < addresses.length
  · simp [Tree.addresses, assign, hlt, hi.2 hlt]
  · have hnone : t.nodes[i]? = none := Array.getElem?_eq_none (Nat.not_lt.1 (mt hi.1 hlt))
    simp [Tree.addresses, assign, hnone, Nat.not_lt.1 hlt]

end Tree

/-- What a strategy proposes for a tree that makes sense: an address for each of its nodes. -/
structure Proposes (strategy : Strategy) (t : Tree) (addresses : List Nat) : Prop where
  liveness : ∃ l, t.liveness = .ok l ∧ strategy.place t l = addresses
  items : t.ItemsDistinct
  length_eq : addresses.length = t.size

/-- The ways in which solving ends. Nothing is placed before there is an address for every node, and
what is placed and refused is cleared. -/
inductive Verdict (strategy : Strategy) (limit : Option Nat) (t : Tree) :
    Outcome Tree Layout → Prop
  | disordered {problem : TreeProblem} : t.liveness = .error problem →
    Verdict strategy limit t ⟨t, .error (.malformedTree problem), []⟩
  | shared {l : Liveness} : t.liveness = .ok l → ¬ t.ItemsDistinct →
    Verdict strategy limit t ⟨t, .error (.malformedTree .sharedItem), []⟩
  | uneven {l : Liveness} : t.liveness = .ok l → t.ItemsDistinct →
    (strategy.place t l).length ≠ t.size →
      Verdict strategy limit t ⟨t, .error (.invalidLayout strategy.name), []⟩
  | invalid {addresses : List Nat} : Proposes strategy t addresses →
    (t.assign addresses).validate = false →
      Verdict strategy limit t ⟨t.clearAddresses, .error (.invalidLayout strategy.name), []⟩
  | exceeded {addresses : List Nat} {bound : Nat} : Proposes strategy t addresses →
    (t.assign addresses).validate = true → limit = some bound →
      bound < (t.assign addresses).footprint →
        Verdict strategy limit t ⟨t.clearAddresses,
          .error (.allocationExhausted (t.assign addresses).footprint bound), []⟩
  | solved {addresses : List Nat} : Proposes strategy t addresses →
    (t.assign addresses).validate = true →
      (∀ bound, limit = some bound → (t.assign addresses).footprint ≤ bound) →
        Verdict strategy limit t ⟨t.assign addresses,
          .ok ⟨(t.assign addresses).footprint, (t.assign addresses).unshared, strategy.name⟩, []⟩

theorem verdict_solve (strategy : Strategy) (limit : Option Nat) (t : Tree) :
    Verdict strategy limit t (solve strategy limit t) := by
  unfold solve
  cases hl : t.liveness with
  | error problem => exact .disordered hl
  | ok l =>
    dsimp only
    split
    · rename_i hitems
      exact .shared hl hitems
    · rename_i hitems
      rw [not_not] at hitems
      split
      · rename_i hlen
        exact .uneven hl hitems hlen
      · rename_i hlen
        have hp : Proposes strategy t (strategy.place t l) :=
          ⟨⟨l, hl, rfl⟩, hitems, not_not.1 hlen⟩
        split
        · rename_i hvalid
          split
          · exact .solved hp hvalid fun bound hbound => by cases hbound
          · split
            · rename_i hbound
              rw [Tree.clearAddresses_assign]
              exact .exceeded hp hvalid rfl hbound
            · rename_i hbound
              refine .solved hp hvalid fun bound h => ?_
              cases h
              exact Nat.not_lt.1 hbound
        · rename_i hvalid
          rw [Tree.clearAddresses_assign]
          exact .invalid hp (Bool.not_eq_true _ ▸ hvalid)

section Solve

variable {strategy : Strategy} {limit : Option Nat} {t : Tree}

theorem Proposes.solve_eq {addresses : List Nat} (hp : Proposes strategy t addresses) :
    solve strategy limit t =
      if (t.assign addresses).validate then
        match limit with
        | none => ⟨t.assign addresses,
          .ok ⟨(t.assign addresses).footprint, (t.assign addresses).unshared, strategy.name⟩, []⟩
        | some bound =>
          if bound < (t.assign addresses).footprint then ⟨t.clearAddresses,
            .error (.allocationExhausted (t.assign addresses).footprint bound), []⟩
          else ⟨t.assign addresses,
            .ok ⟨(t.assign addresses).footprint, (t.assign addresses).unshared, strategy.name⟩, []⟩
      else ⟨t.clearAddresses, .error (.invalidLayout strategy.name), []⟩ := by
  obtain ⟨⟨l, hl, rfl⟩, hitems, hlen⟩ := hp
  unfold solve
  rw [hl, ← Tree.clearAddresses_assign t (strategy.place t l)]
  refine (if_neg (not_not.2 hitems)).trans ((if_neg (not_not.2 hlen)).trans ?_)
  cases limit <;> rfl

/-- At most one of the ways applies. -/
theorem Verdict.solve_eq {o : Outcome Tree Layout} (h : Verdict strategy limit t o) :
    solve strategy limit t = o := by
  cases h with
  | disordered hl =>
    unfold solve
    rw [hl]
  | shared hl hitems =>
    unfold solve
    rw [hl]
    exact if_pos hitems
  | uneven hl hitems hlen =>
    unfold solve
    rw [hl]
    dsimp only
    rw [if_neg (not_not.2 hitems), if_pos hlen]
  | invalid hp hvalid => rw [hp.solve_eq, hvalid, if_neg Bool.false_ne_true]
  | exceeded hp hvalid hlimit hbound =>
    rw [hp.solve_eq, if_pos hvalid, hlimit]
    exact if_pos hbound
  | solved hp hvalid hwithin =>
    rw [hp.solve_eq, if_pos hvalid]
    cases limit with
    | none => rfl
    | some bound => exact if_neg (Nat.not_lt.2 (hwithin bound rfl))

theorem solve_of_ok {layout : Layout} (h : (solve strategy limit t).answer = .ok layout) :
    ∃ addresses, (solve strategy limit t).state = t.assign addresses ∧
      (t.assign addresses).validate = true ∧
        layout = ⟨(t.assign addresses).footprint, (t.assign addresses).unshared, strategy.name⟩ ∧
          ∀ bound, limit = some bound → layout.footprint ≤ bound := by
  have hv := verdict_solve strategy limit t
  generalize solve strategy limit t = o at h hv
  cases hv with
  | solved hp hvalid hwithin =>
    cases h
    exact ⟨_, rfl, hvalid, rfl, hwithin⟩
  | _ => cases h

theorem answer_of_limit {layout : Layout} (h : (solve strategy none t).answer = .ok layout)
    (bound : Nat) : (solve strategy (some bound) t).answer =
      if bound < layout.footprint then .error (.allocationExhausted layout.footprint bound)
      else .ok layout := by
  have hv := verdict_solve strategy none t
  generalize solve strategy none t = o at h hv
  cases hv with
  | solved hp hvalid hwithin =>
    cases h
    rw [hp.solve_eq, if_pos hvalid]
    dsimp only
    split <;> rfl
  | _ => cases h

end Solve

end Timbre.Memory
