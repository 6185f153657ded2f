import Timbre.Proofs.Kernel.Scratch

/-! # Uses inside uses

A use may take a second slot while it holds the first, a third while it holds both, and so on. What
it holds are always the first slots of the pool, so level `l` gets slot `l`, and on the way back
every level frees the slot that it got, with the value that it has made. So uses one after the other
add up slot by slot, and no update is lost or done twice. Only a use that is deeper than the pool
has slots never gets on. Main statement: `runAll_of_idle`.
-/
namespace Timbre.ScratchPool

variable {α β : Type}

/-- What a level of a use does with the value of its slot: before the deeper levels run, and after
they have returned. -/
structure Level (α : Type) where
  enter : α → α
  leave : α → α

def Level.update (level : Level α) (value : α) : α := level.leave (level.enter value)

/-- The slot that a level got, and the value that it left there. -/
structure Visit (α : Type) where
  slot : Nat
  left : α

/-- Borrows for a use that is told which slot it gets. -/
def borrowAt (pool : ScratchPool α)
    (use : Nat → α → ScratchPool α → Except Fault (α × ScratchPool α × β)) :
    Except Fault (ScratchPool α × β) :=
  match pool.firstFree? with
  | none => .error .blocked
  | some (i, value) =>
    match use i value (pool.setSlot i ⟨value, true⟩) with
    | .error e => .error e
    | .ok (value', pool', b) => .ok (pool'.setSlot i ⟨value', false⟩, b)

theorem borrow_eq_borrowAt (pool : ScratchPool α)
    (use : α → ScratchPool α → Except Fault (α × ScratchPool α × β)) :
    pool.borrow use = pool.borrowAt fun _ => use := rfl

def run : List (Level α) → ScratchPool α → Except Fault (ScratchPool α × List (Visit α))
  | [], pool => .ok (pool, [])
  | level :: deeper, pool =>
    pool.borrowAt fun slot value busy =>
      let entered := level.enter value
      match run deeper busy with
      | .error e => .error e
      | .ok (busy', visits) =>
        .ok (level.leave entered, busy', ⟨slot, level.leave entered⟩ :: visits)

def runAll : List (List (Level α)) → ScratchPool α →
    Except Fault (ScratchPool α × List (List (Visit α)))
  | [], pool => .ok (pool, [])
  | use :: uses, pool =>
    match run use pool with
    | .error e => .error e
    | .ok (pool', visits) =>
      match runAll uses pool' with
      | .error e => .error e
      | .ok (pool'', rest) => .ok (pool'', visits :: rest)

/-- The levels with the given number, of all uses that go deep enough to have one. -/
def levelsAt (l : Nat) (uses : List (List (Level α))) : List (Level α) := uses.filterMap (·[l]?)

def updated (levels : List (Level α)) (v : α) : α :=
  levels.foldl (fun v level => level.update v) v

/-- A nested use whose levels do all their work before they go deeper. -/
theorem nested_eq_run (update : Nat → α → α) (depth level : Nat) (pool : ScratchPool α) :
    nested update depth level pool =
      (run ((List.range' level depth).map fun l => ⟨update l, id⟩) pool).map
        fun r => (r.1, r.2.map (·.left)) := by
  induction depth generalizing level pool with
  | zero => rfl
  | succ depth ih =>
    rw [nested, borrow_eq_borrowAt, List.range'_succ, List.map_cons, run, borrowAt, borrowAt]
    cases pool.firstFree? with
    | none => rfl
    | some taken =>
      dsimp only
      rw [ih]
      cases run _ (pool.setSlot taken.1 ⟨taken.2, true⟩) <;> rfl

def Idle (pool : ScratchPool α) : Prop := ∀ slot ∈ pool.slots, slot.busy = false

/-- Exactly the first `n` slots are taken. -/
def Holds (pool : ScratchPool α) (n : Nat) : Prop :=
  ∀ i slot, pool.slots[i]? = some slot → slot.busy = decide (i < n)

def valueAt? (pool : ScratchPool α) (i : Nat) : Option α := pool.slots[i]?.map (·.value)

variable {pool pool' : ScratchPool α} {i j n : Nat} {slot : Slot α} {v : α}

theorem valueAt?_setSlot_self (slot : Slot α) (hi : i < pool.size) :
    (pool.setSlot i slot).valueAt? i = some slot.value := by
  rw [valueAt?, getElem?_setSlot_self slot hi, Option.map_some]

theorem valueAt?_setSlot_ne (pool : ScratchPool α) (slot : Slot α) (h : i ≠ j) :
    (pool.setSlot i slot).valueAt? j = pool.valueAt? j := by
  rw [valueAt?, getElem?_setSlot_ne pool slot h, valueAt?]

theorem idle_ofSize (size : Nat) (v : α) : (ofSize size v).Idle := by
  intro slot hslot
  rw [ofSize, Array.mem_replicate] at hslot
  rw [hslot.2]

theorem holds_zero_iff : pool.Holds 0 ↔ pool.Idle := by
  constructor
  · intro h slot hslot
    obtain ⟨i, hi⟩ := Array.getElem?_of_mem hslot
    exact h i slot hi
  · intro h i slot hslot
    exact h slot (Array.mem_of_getElem? hslot)

namespace Holds

theorem exists_getElem? (h : pool.Holds n) (hn : n < pool.size) :
    ∃ v, pool.slots[n]? = some ⟨v, false⟩ := by
  have hget : pool.slots[n]? = some pool.slots[n] := Array.getElem?_eq_getElem hn
  have hbusy : pool.slots[n].busy = false := by simpa using h n _ hget
  exact ⟨pool.slots[n].value, by rw [hget, ← hbusy]⟩

theorem firstFree?_eq (h : pool.Holds n) (hslot : pool.slots[n]? = some ⟨v, false⟩) :
    pool.firstFree? = some (n, v) := by
  refine firstFree?_eq_some_iff.2 ⟨hslot, fun j hj slot hget => ?_⟩
  rw [h j slot hget, decide_eq_true hj]

theorem firstFree?_eq_none (h : pool.Holds n) (hn : pool.size ≤ n) : pool.firstFree? = none := by
  cases hfree : pool.firstFree? with
  | none => rfl
  | some taken =>
    obtain ⟨hslot, -⟩ := firstFree?_eq_some_iff.1 hfree
    have hlt : taken.1 < pool.size := (Array.getElem?_eq_some_iff.1 hslot).1
    have hbusy := h taken.1 _ hslot
    simp [Nat.lt_of_lt_of_le hlt hn] at hbusy

theorem setSlot {m : Nat} (h : pool.Holds n) (hi : i < pool.size)
    (hslot : slot.busy = decide (i < m)) (hother : ∀ j, i ≠ j → (j < n ↔ j < m)) :
    (pool.setSlot i slot).Holds m := by
  intro j slot' hget
  by_cases hij : i = j
  · subst hij
    rw [getElem?_setSlot_self slot hi] at hget
    cases hget
    exact hslot
  · rw [getElem?_setSlot_ne pool slot hij] at hget
    rw [h j slot' hget, decide_eq_decide]
    exact hother j hij

theorem take (h : pool.Holds n) (hn : n < pool.size) (v : α) :
    (pool.setSlot n ⟨v, true⟩).Holds (n + 1) :=
  h.setSlot hn (by simp) fun j hj => by omega

theorem free (h : pool.Holds (n + 1)) (hn : n < pool.size) (v : α) :
    (pool.setSlot n ⟨v, false⟩).Holds n :=
  h.setSlot hn (by simp) fun j hj => by omega

end Holds

/-- What a use leaves of a pool whose first `n` slots were taken before. -/
structure Ran (n : Nat) (levels : List (Level α)) (pool pool' : ScratchPool α)
    (visits : List (Visit α)) : Prop where
  slots_eq : visits.map (·.slot) = List.range' n levels.length
  size_eq : pool'.size = pool.size
  holds : pool'.Holds n
  valueAt?_eq : ∀ l, pool'.valueAt? (n + l) =
    (pool.valueAt? (n + l)).map (updated levels[l]?.toList)

theorem Holds.ran_nil (h : pool.Holds n) : Ran n [] pool pool [] where
  slots_eq := rfl
  size_eq := rfl
  holds := h
  valueAt?_eq l := by
    have hid : updated ([] : List (Level α)) = id := rfl
    rw [List.getElem?_nil, Option.toList_none, hid, Option.map_id, id]

/-- The outermost level comes back to a pool in which its slot is still the last one taken. -/
theorem Ran.cons (level : Level α) {deeper : List (Level α)} {visits : List (Visit α)}
    (hn : n < pool.size) (hslot : pool.slots[n]? = some ⟨v, false⟩)
    (h : Ran (n + 1) deeper (pool.setSlot n ⟨v, true⟩) pool' visits) :
    Ran n (level :: deeper) pool (pool'.setSlot n ⟨level.update v, false⟩)
      (⟨n, level.update v⟩ :: visits) := by
  have hsize : pool'.size = pool.size := h.size_eq.trans (size_setSlot pool n _)
  have hn' : n < pool'.size := hsize.symm ▸ hn
  refine ⟨?_, ?_, h.holds.free hn' _, fun l => ?_⟩
  · rw [List.map_cons, h.slots_eq, List.length_cons, List.range'_succ]
  · rw [size_setSlot, hsize]
  · cases l with
    | zero =>
      rw [Nat.add_zero, valueAt?_setSlot_self _ hn', valueAt?, hslot]
      rfl
    | succ l =>
      have hne : n ≠ n + (l + 1) := by omega
      have hplace : n + 1 + l = n + (l + 1) := by omega
      have hdeeper := h.valueAt?_eq l
      rw [hplace] at hdeeper
      rw [valueAt?_setSlot_ne _ _ hne, hdeeper, valueAt?_setSlot_ne _ _ hne,
        List.getElem?_cons_succ]

theorem Holds.exists_run {levels : List (Level α)} (h : pool.Holds n)
    (hroom : n + levels.length ≤ pool.size) :
    ∃ pool' visits, run levels pool = .ok (pool', visits) ∧ Ran n levels pool pool' visits := by
  induction levels generalizing n pool with
  | nil => exact ⟨pool, [], rfl, h.ran_nil⟩
  | cons level deeper ih =>
    rw [List.length_cons] at hroom
    have hn : n < pool.size := by omega
    obtain ⟨v, hslot⟩ := h.exists_getElem? hn
    obtain ⟨busy, visits, hrun, hran⟩ := ih (h.take hn v) (by rw [size_setSlot]; omega)
    refine ⟨_, _, ?_, hran.cons level hn hslot⟩
    rw [run, borrowAt, h.firstFree?_eq hslot]
    dsimp only
    rw [hrun]
    rfl

/-- A use that goes deeper than there are free slots does not come back. -/
theorem Holds.run_eq_blocked {levels : List (Level α)} (h : pool.Holds n) (hn : n ≤ pool.size)
    (hdeep : pool.size < n + levels.length) : run levels pool = .error .blocked := by
  induction levels generalizing n pool with
  | nil => exact absurd hdeep (Nat.not_lt.2 hn)
  | cons level deeper ih =>
    rw [run, borrowAt]
    rcases Nat.eq_or_lt_of_le hn with rfl | hlt
    · rw [h.firstFree?_eq_none (Nat.le_refl _)]
    · obtain ⟨v, hslot⟩ := h.exists_getElem? hlt
      rw [List.length_cons] at hdeep
      have hblocked := ih (h.take hlt v) (by rw [size_setSlot]; omega)
        (by rw [size_setSlot]; omega)
      rw [h.firstFree?_eq hslot]
      dsimp only
      rw [hblocked]

theorem updated_levelsAt_cons (l : Nat) (use : List (Level α)) (uses : List (List (Level α)))
    (v : α) : updated (levelsAt l (use :: uses)) v =
      updated (levelsAt l uses) (updated use[l]?.toList v) := by
  rw [levelsAt, List.filterMap_cons]
  cases use[l]? <;> rfl

/-- Uses of a pool in which no slot is taken, none of them deeper than the pool has slots, all come
back. Level `l` always gets slot `l`, in which it finds no other level; at the end slot `l` holds
what the updates by level `l` make of its value, of each use that is deeper than `l` and in the
order of the uses, and no slot is taken. -/
theorem runAll_of_idle (hidle : pool.Idle) {uses : List (List (Level α))}
    (hdepth : ∀ use ∈ uses, use.length ≤ pool.size) :
    ∃ pool' visits, runAll uses pool = .ok (pool', visits) ∧
      visits.map (·.map (·.slot)) = uses.map (fun use => List.range use.length) ∧
      pool'.Idle ∧ pool'.size = pool.size ∧
      ∀ l, pool'.valueAt? l = (pool.valueAt? l).map (updated (levelsAt l uses)) := by
  induction uses generalizing pool with
  | nil => exact ⟨pool, [], rfl, rfl, hidle, rfl, fun l => (Option.map_id_apply).symm⟩
  | cons use uses ih =>
    obtain ⟨huse, huses⟩ := List.forall_mem_cons.1 hdepth
    obtain ⟨pool₁, visits, hrun, hran⟩ :=
      (holds_zero_iff.2 hidle).exists_run (by rwa [Nat.zero_add])
    obtain ⟨pool₂, rest, hrest, hslots, hidle₂, hsize, hvalues⟩ :=
      ih (holds_zero_iff.1 hran.holds) (hran.size_eq.symm ▸ huses)
    refine ⟨pool₂, visits :: rest, ?_, ?_, hidle₂, hsize.trans hran.size_eq, fun l => ?_⟩
    · rw [runAll, hrun]
      dsimp only
      rw [hrest]
    · rw [List.map_cons, hran.slots_eq, hslots, List.map_cons, List.range_eq_range']
    · have hvalue := hran.valueAt?_eq l
      rw [Nat.zero_add] at hvalue
      rw [hvalues l, hvalue, Option.map_map]
      exact Option.map_congr fun v _ => (updated_levelsAt_cons l use uses v).symm

def shallowAndDeep : List (List (Level Nat)) :=
  [[⟨(· + 1), (· * 2)⟩, ⟨(· * 3), id⟩], [⟨(· * 5), (· + 1)⟩], [⟨(· + 4), id⟩, ⟨id, (· + 2)⟩]]

theorem runAll_shallowAndDeep : (ofSize 2 1).Idle ∧
    (∀ use ∈ shallowAndDeep, use.length ≤ (ofSize 2 1).size) ∧
    ∃ pool visits, runAll shallowAndDeep (ofSize 2 1) = .ok (pool, visits) ∧
      visits.map (·.map (·.slot)) = [[0, 1], [0], [0, 1]] ∧ pool.Idle ∧
      pool.valueAt? 0 = some (((1 + 1) * 2) * 5 + 1 + 4) ∧ pool.valueAt? 1 = some (1 * 3 + 2) := by
  have hdepth : ∀ use ∈ shallowAndDeep, use.length ≤ (ofSize 2 1).size := by
    simp [shallowAndDeep, ofSize, size]
  obtain ⟨pool, visits, hrun, hslots, hidle, -, hvalues⟩ :=
    runAll_of_idle (idle_ofSize 2 1) hdepth
  exact ⟨idle_ofSize 2 1, hdepth, pool, visits, hrun, hslots, hidle, hvalues 0, hvalues 1⟩

end Timbre.ScratchPool
