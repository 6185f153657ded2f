/-! # Reading integers

An integer is written with decimal digits after an optional sign; a minus sign is admitted only
where negative values are. Digits are taken from the left, and the first fault found decides the
error: a character that is no digit, or a value outside the range.
-/
namespace Timbre

structure IntegerRange where
  least : Int
  greatest : Int
deriving DecidableEq, Repr

namespace IntegerRange

def unsigned (bits : Nat) : IntegerRange := ⟨0, (1 <<< bits : Nat) - 1⟩

def signed (bits : Nat) : IntegerRange :=
  ⟨-(1 <<< (bits - 1) : Nat), (1 <<< (bits - 1) : Nat) - 1⟩

end IntegerRange

/-- The largest size, count or address. -/
def maxSize : Nat := 0xFFFFFFFFFFFFFFFF

inductive IntegerError
  | empty
  | invalidDigit
  | tooLarge
  | tooSmall
deriving DecidableEq, Repr

def IntegerError.message : IntegerError → String
  | .empty => "cannot parse integer from empty string"
  | .invalidDigit => "invalid digit found in string"
  | .tooLarge => "number too large to fit in target type"
  | .tooSmall => "number too small to fit in target type"

def digit? (c : Char) : Option Nat :=
  if '0' ≤ c ∧ c ≤ '9' then some (c.toNat - 48) else none

namespace IntegerRange

/-- `acc` with one more digit, which moves it away from zero in the direction of the sign. -/
def pushDigit (negative : Bool) (acc : Int) (d : Nat) : Int :=
  if negative then acc * 10 - d else acc * 10 + d

/-- Appends the digits to `acc` while it stays in the range. -/
def appendDigits (range : IntegerRange) (negative : Bool) : Int → List Char →
    Except IntegerError Int
  | acc, [] => .ok acc
  | acc, c :: cs =>
    match digit? c with
    | none => .error .invalidDigit
    | some d =>
      if range.greatest < pushDigit negative acc d then .error .tooLarge
      else if pushDigit negative acc d < range.least then .error .tooSmall
      else appendDigits range negative (pushDigit negative acc d) cs

def read (range : IntegerRange) : List Char → Except IntegerError Int
  | [] => .error .empty
  | ['+'] => .error .invalidDigit
  | ['-'] => .error .invalidDigit
  | '+' :: cs => range.appendDigits false 0 cs
  | '-' :: cs =>
    if range.least < 0 then range.appendDigits true 0 cs else .error .invalidDigit
  | cs => range.appendDigits false 0 cs

end IntegerRange

def decimal (n : Nat) : List Char := Nat.toDigits 10 n

end Timbre
