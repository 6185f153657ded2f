import Timbre.Parameter
import Timbre.Proofs.Text.Fields
import Timbre.Proofs.Traversal

/-! # Numbers read back

The digits of a number in decimal are read as this number if it lies in the range: the value grows
from digit to digit, so it leaves the range at none of them. No digit is a separator, so a list of
numbers that are written one after the other, with gaps of commas and blanks between them, is read
as the numbers in their order. Main statements: `IntegerRange.read_decimal` and
`Parameter.readList_decimal`.
-/
namespace Timbre

theorem digit?_of_isDigit {c : Char} (h : c.isDigit) : digit? c = some (c.toNat - 48) := by
  simp only [Char.isDigit, Bool.and_eq_true, decide_eq_true_eq] at h
  exact if_pos h

theorem isDigit_of_mem_decimal {n : Nat} {c : Char} (h : c ∈ decimal n) : c.isDigit :=
  Nat.isDigit_of_mem_toDigits (by decide) (by decide) h

namespace IntegerRange

variable {range : IntegerRange} {cs : List Char}

theorem le_ofDigitChars (acc : Nat) (cs : List Char) : acc ≤ Nat.ofDigitChars 10 cs acc := by
  induction cs generalizing acc with
  | nil => exact Nat.le_refl acc
  | cons c cs ih =>
    rw [Nat.ofDigitChars_cons]
    exact Nat.le_trans (by omega) (ih _)

theorem appendDigits_eq_ok (hleast : range.least ≤ 0) (acc : Nat)
    (hdigits : ∀ c ∈ cs, c.isDigit) (hvalue : Nat.ofDigitChars 10 cs acc ≤ range.greatest) :
    range.appendDigits false acc cs = .ok (Nat.ofDigitChars 10 cs acc) := by
  induction cs generalizing acc with
  | nil => rfl
  | cons c cs ih =>
    obtain ⟨hc, hcs⟩ := List.forall_mem_cons.1 hdigits
    rw [Nat.ofDigitChars_cons] at hvalue ⊢
    have hpush : pushDigit false acc (c.toNat - 48) =
        (10 * acc + (c.toNat - '0'.toNat) : Nat) := by
      simp [pushDigit, Int.mul_comm]
    have hle := le_ofDigitChars (10 * acc + (c.toNat - '0'.toNat)) cs
    rw [appendDigits, digit?_of_isDigit hc]
    dsimp only
    rw [hpush, if_neg (by omega), if_neg (by omega)]
    exact ih _ hcs hvalue

theorem read_decimal {n : Nat} (hleast : range.least ≤ 0) (hn : n ≤ range.greatest) :
    range.read (decimal n) = .ok n := by
  have hvalue : Nat.ofDigitChars 10 (decimal n) 0 = n := Nat.ofDigitChars_ten_toDigits
  have hdigits : ∀ c ∈ decimal n, c.isDigit := fun c hc => isDigit_of_mem_decimal hc
  have hread := appendDigits_eq_ok hleast 0 hdigits (by rwa [hvalue])
  rw [hvalue] at hread
  unfold read
  split
  case h_6 => exact hread
  case h_1 hnil => exact absurd hnil Nat.toDigits_ne_nil
  all_goals
    rename_i hsign
    exact absurd (hdigits _ (hsign ▸ List.mem_cons_self)) (by decide)

end IntegerRange

namespace Parameter

variable {range : IntegerRange} {ns : List Nat} {n : Nat} {text : List Char}

theorem isSeparator_of_isDigit {c : Char} (h : c.isDigit) : isSeparator c = false := by
  simp only [Char.isDigit, Bool.and_eq_true, decide_eq_true_eq] at h
  have hlow : 48 ≤ c.toNat := h.1
  have hhigh : c.toNat ≤ 57 := h.2
  have hcomma : c ≠ ',' := by
    rintro rfl
    exact absurd hlow (by decide)
  have hblank : Text.isBlank c = false := by
    simp [Text.isBlank]
    omega
  simp [isSeparator, hcomma, hblank]

theorem isBlank_of_isSeparator {c : Char} (h : isSeparator c = false) : Text.isBlank c = false :=
  (Bool.or_eq_false_iff.1 h).2

theorem word_decimal (n : Nat) : Text.Word isSeparator (decimal n) where
  ne_nil := Nat.toDigits_ne_nil
  not_separator _ hc := isSeparator_of_isDigit (isDigit_of_mem_decimal hc)

theorem readInteger_decimal (hleast : range.least ≤ 0) (hn : n ≤ range.greatest) :
    readInteger range (decimal n) = .ok n := by
  have hblank : ∀ c ∈ decimal n, Text.isBlank c = false := fun c hc =>
    isBlank_of_isSeparator ((word_decimal n).not_separator c hc)
  rw [readInteger, Text.trim_of_not_blank hblank, range.read_decimal hleast hn]
  rfl

/-- Whatever is done with each number that is read. -/
theorem readList_map_decimal {α : Type} (f : Int → α) (hleast : range.least ≤ 0)
    (hns : ∀ n ∈ ns, (n : Int) ≤ range.greatest)
    (htext : Text.Listed isSeparator (ns.map decimal) text) :
    readList (fun item => (readInteger range item).map f) text =
      .ok (ns.map fun n : Nat => f n) := by
  have hwords : ∀ word ∈ ns.map decimal, Text.Word isSeparator word := by
    intro word hword
    obtain ⟨n, -, rfl⟩ := List.mem_map.1 hword
    exact word_decimal n
  rw [readList, htext.fields_eq hwords, List.mapM_map]
  refine mapM_eq_ok fun n hn => ?_
  rw [Function.comp_apply, readInteger_decimal hleast (hns n hn)]
  rfl

theorem readList_decimal (hleast : range.least ≤ 0) (hns : ∀ n ∈ ns, (n : Int) ≤ range.greatest)
    (htext : Text.Listed isSeparator (ns.map decimal) text) :
    readList (readInteger range) text = .ok (ns.map fun n : Nat => (n : Int)) := by
  have hread := readList_map_decimal id hleast hns htext
  simpa only [Except.map_id, id] using hread

end Parameter

end Timbre
