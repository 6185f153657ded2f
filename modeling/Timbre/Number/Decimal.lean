import Timbre.Number.Integer
import Timbre.Number.Single
import Timbre.Text.Blank

/-! # Reading single-precision numbers

A number is an optional sign and then a word for infinity or for NaN, in any case, or digits with an
optional point and an optional exponent; a digit stands on at least one side of the point. The value
is the nearest single-precision number to the decimal that is written.
-/
namespace Timbre

inductive DecimalError
  | empty
  | invalid
deriving DecidableEq, Repr

def DecimalError.message : DecimalError → String
  | .empty => "cannot parse float from empty string"
  | .invalid => "invalid float literal"

namespace Single

def isDigit (c : Char) : Bool := (digit? c).isSome

def digitsValue (cs : List Char) : Nat := cs.foldl (fun acc c => acc * 10 + (digit? c).getD 0) 0

def takeSign : List Char → Bool × List Char
  | '-' :: cs => (true, cs)
  | '+' :: cs => (false, cs)
  | cs => (false, cs)

/-- An exponent part that ends the text; no exponent part is `0`. -/
def exponent? : List Char → Option Int
  | [] => some 0
  | c :: cs =>
    if c = 'e' ∨ c = 'E' then
      let (negative, ds) := takeSign cs
      if ds.isEmpty || !ds.all isDigit then none
      else some (if negative then -(digitsValue ds : Int) else digitsValue ds)
    else none

/-- The digits, the point and the exponent of an unsigned decimal. -/
def decimal? (negative : Bool) (cs : List Char) : Option Single :=
  let whole := cs.takeWhile isDigit
  let rest := cs.dropWhile isDigit
  let (fraction, rest) := match rest with
    | '.' :: more => (more.takeWhile isDigit, more.dropWhile isDigit)
    | _ => ([], rest)
  if whole.isEmpty && fraction.isEmpty then none
  else (exponent? rest).map fun e =>
    ofDecimal negative (digitsValue (whole ++ fraction)) (e - fraction.length)

def read (text : List Char) : Except DecimalError Single :=
  if text.isEmpty then .error .empty
  else
    let (negative, cs) := takeSign text
    if Text.sameLetters cs "inf".toList || Text.sameLetters cs "infinity".toList then
      .ok (nearest negative (1 <<< 200) 1)
    else if Text.sameLetters cs "nan".toList then .ok quietNaN
    else match decimal? negative cs with
      | some x => .ok x
      | none => .error .invalid

end Single

end Timbre
