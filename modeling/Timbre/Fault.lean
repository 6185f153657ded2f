/-! # Faults and checked steps

A step that has no result answers a fault: a slice or an index outside an array, a subtraction
below zero, a division by zero, a shift by the width of a word or more, a scratch slot that never
becomes free. Shape arithmetic and array accesses go through the checked steps of this module, so
that the absence of faults is a statement about them.
-/
namespace Timbre

inductive Fault
  | outOfRange
  | belowZero
  | divisionByZero
  | wideShift
  | blocked
deriving DecidableEq, Repr

namespace Checked

def sub (a b : Nat) : Except Fault Nat := if b ≤ a then .ok (a - b) else .error .belowZero

def div (a b : Nat) : Except Fault Nat := if b = 0 then .error .divisionByZero else .ok (a / b)

def mod (a b : Nat) : Except Fault Nat := if b = 0 then .error .divisionByZero else .ok (a % b)

/-- `a / 2 ^ b`, for a shift within a word of 64 bits. -/
def shiftRight (a b : Nat) : Except Fault Nat :=
  if b < 64 then .ok (a >>> b) else .error .wideShift

/-- `a * 2 ^ b`, for a shift within a word of 64 bits. -/
def shiftLeft (a b : Nat) : Except Fault Nat :=
  if b < 64 then .ok (a <<< b) else .error .wideShift

variable {α : Type}

def get (xs : Array α) (i : Nat) : Except Fault α :=
  match xs[i]? with
  | some x => .ok x
  | none => .error .outOfRange

def set (xs : Array α) (i : Nat) (x : α) : Except Fault (Array α) :=
  if h : i < xs.size then .ok (xs.set i x h) else .error .outOfRange

/-- The positions from `start` up to but not including `stop`. -/
def slice (xs : Array α) (start stop : Nat) : Except Fault (Array α) :=
  if start ≤ stop ∧ stop ≤ xs.size then .ok (xs.extract start stop) else .error .outOfRange

theorem sub_eq_ok {a b : Nat} (h : b ≤ a) : sub a b = .ok (a - b) := if_pos h

theorem sub_eq_ok_iff {a b c : Nat} : sub a b = .ok c ↔ b ≤ a ∧ a - b = c := by
  unfold sub
  split <;> simp [*]

theorem div_eq_ok_iff {a b c : Nat} : div a b = .ok c ↔ b ≠ 0 ∧ a / b = c := by
  unfold div
  split <;> simp [*]

theorem mod_eq_ok_iff {a b c : Nat} : mod a b = .ok c ↔ b ≠ 0 ∧ a % b = c := by
  unfold mod
  split <;> simp [*]

theorem shiftRight_eq_ok {a b : Nat} (h : b < 64) : shiftRight a b = .ok (a >>> b) := if_pos h

theorem shiftLeft_eq_ok {a b : Nat} (h : b < 64) : shiftLeft a b = .ok (a <<< b) := if_pos h

theorem get_eq_ok {xs : Array α} {i : Nat} (h : i < xs.size) : get xs i = .ok xs[i] := by
  simp [get, h]

theorem set_eq_ok {xs : Array α} {i : Nat} (x : α) (h : i < xs.size) :
    set xs i x = .ok (xs.set i x h) := by
  simp [set, h]

theorem set_eq_error {xs : Array α} {i : Nat} (x : α) (h : xs.size ≤ i) :
    set xs i x = .error .outOfRange := dif_neg (Nat.not_lt.2 h)

theorem slice_eq_ok {xs : Array α} {start stop : Nat} (h : start ≤ stop) (h' : stop ≤ xs.size) :
    slice xs start stop = .ok (xs.extract start stop) := if_pos ⟨h, h'⟩

theorem slice_eq_error_iff {xs : Array α} {start stop : Nat} {e : Fault} :
    slice xs start stop = .error e ↔ ¬(start ≤ stop ∧ stop ≤ xs.size) ∧ e = .outOfRange := by
  unfold slice
  split <;> simp [*, eq_comm]

end Checked

end Timbre
