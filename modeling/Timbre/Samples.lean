import Timbre.Fault

/-! # Arrays of samples

What a kernel writes goes over the front of an array that is already there: the array keeps its
length, and what the written values do not reach keeps its value. Sums run from left to right.
-/
namespace Timbre.Samples

variable {α β σ : Type}

def overwrite (output values : Array α) : Array α :=
  values.extract 0 output.size ++ output.extract values.size output.size

@[simp] theorem size_overwrite (output values : Array α) :
    (overwrite output values).size = output.size := by
  simp [overwrite]
  omega

theorem getElem?_overwrite (output values : Array α) (i : Nat) :
    (overwrite output values)[i]? =
      if i < values.size ∧ i < output.size then values[i]? else output[i]? := by
  simp only [overwrite, Array.getElem?_append, Array.size_extract, Array.getElem?_extract,
    Nat.sub_zero, Nat.zero_add]
  by_cases hi : i < values.size ∧ i < output.size
  · rw [if_pos hi, if_pos (by omega), if_pos (by omega)]
  · rw [if_neg hi, if_neg (by omega)]
    by_cases ho : i < output.size
    · rw [if_pos (by omega)]
      congr 1
      omega
    · rw [if_neg (by omega), Array.getElem?_eq_none (by omega)]

/-- Nothing of the old values is left once there are enough new ones. -/
theorem overwrite_of_size_le {output values : Array α} (h : output.size ≤ values.size) :
    overwrite output values = values.extract 0 output.size := by
  simp [overwrite, Array.extract_empty_of_size_le_start, h]

def sum [Add α] [Zero α] (xs : Array α) : α := xs.foldl (· + ·) 0

def energy [Add α] [Mul α] [Zero α] (xs : Array α) : α := sum (xs.map fun x => x * x)

def pairs (xs : Array α) : Array (α × α) :=
  Array.ofFn fun i : Fin (xs.size / 2) => (xs[2 * i.val], xs[2 * i.val + 1])

/-- The pieces of `n` consecutive values; the last one may be shorter. -/
def chunks (n : Nat) (xs : Array α) : List (Array α) :=
  (List.range ((xs.size + (n - 1)) / n)).map fun i => xs.extract (i * n) (i * n + n)

/-- Works on inputs and outputs side by side, with a state that goes from pair to pair. Outputs
without an input stay as they are. -/
def zipWithM (f : σ → α → β → Except Fault (β × σ)) :
    σ → List α → List β → Except Fault (List β × σ)
  | s, a :: as, b :: bs =>
    match f s a b with
    | .error e => .error e
    | .ok (b', s') =>
      match zipWithM f s' as bs with
      | .error e => .error e
      | .ok (bs', s'') => .ok (b' :: bs', s'')
  | s, _, bs => .ok (bs, s)

end Timbre.Samples
