import Timbre.Number.Single

/-! # The shortest decimal text of a single-precision number

A number is written with the fewest significant digits that read back as the number itself, and of
those digits with the nearest ones. The digits `d₁d₂…` stand for `0.d₁d₂… · 10 ^ point`. What reads
back as a number is an interval around it, in which the gap below a power of two is half the gap
above it. Two notations share the digits: a plain one that never uses an exponent, and a marked one
in which a whole number keeps `.0` and very large and very small numbers take an exponent.
-/
namespace Timbre

structure DecimalDigits where
  digits : List Char
  point : Int
deriving DecidableEq, Repr

namespace Single

/-- Four times the mantissa and the ends of the interval of reals that round to it, all in units of
a quarter of its last bit. -/
structure RoundingInterval where
  low : Nat
  value : Nat
  high : Nat
  closed : Bool

def roundingInterval (mantissa : Nat) (exponent : Int) : RoundingInterval where
  low := 4 * mantissa - if mantissa = 1 <<< 23 ∧ -149 < exponent then 1 else 2
  value := 4 * mantissa
  high := 4 * mantissa + 2
  closed := mantissa % 2 = 0

/-- `a / b` compared in whole numbers against the interval's ends, where one unit of the interval
is `num / den`. -/
def RoundingInterval.contains (i : RoundingInterval) (num den a b : Nat) : Bool :=
  if i.closed then i.low * num * b ≤ a * den && a * den ≤ i.high * num * b
  else i.low * num * b < a * den && a * den < i.high * num * b

/-- The grid `10 ^ place`: the neighbours of the value on it that lie in the interval, the nearer
one if both do. -/
def onGrid (i : RoundingInterval) (num den : Nat) (place : Int) : Option Nat :=
  let up := Nat.pow 10 (-place).toNat
  let down := Nat.pow 10 place.toNat
  let below := i.value * num * up / (den * down)
  let inside (d : Nat) := i.contains num den (d * down) up
  let nearerAbove := (2 * below + 1) * down * den ≤ 2 * i.value * num * up
  if inside below then
    if inside (below + 1) && nearerAbove then some (below + 1) else some below
  else if inside (below + 1) then some (below + 1)
  else none

def firstGrid (i : RoundingInterval) (num den : Nat) : Nat → Int → Option (Nat × Int)
  | 0, _ => none
  | steps + 1, place =>
    match onGrid i num den place with
    | some 0 => firstGrid i num den steps (place - 1)
    | some d => some (d, place)
    | none => firstGrid i num den steps (place - 1)

def shortestDigits (mantissa : Nat) (exponent : Int) : DecimalDigits :=
  let i := roundingInterval mantissa exponent
  let quarter := exponent - 2
  match firstGrid i (1 <<< quarter.toNat) (1 <<< (-quarter).toNat) 100 39 with
  | none => ⟨['0'], 1⟩
  | some (d, place) =>
    let cs := Nat.toDigits 10 d
    ⟨(cs.reverse.dropWhile (· == '0')).reverse, cs.length + place⟩

def signText (negative : Bool) : List Char := if negative then ['-'] else []

def DecimalDigits.positional (d : DecimalDigits) : List Char :=
  if d.point ≤ 0 then '0' :: '.' :: (List.replicate (-d.point).toNat '0' ++ d.digits)
  else if d.digits.length ≤ d.point then
    d.digits ++ List.replicate (d.point.toNat - d.digits.length) '0'
  else d.digits.take d.point.toNat ++ '.' :: d.digits.drop d.point.toNat

def DecimalDigits.scientific (d : DecimalDigits) : List Char :=
  let tail := d.digits.drop 1
  let fraction := if tail.isEmpty then [] else '.' :: tail
  d.digits.take 1 ++ fraction ++ 'e' :: (toString (d.point - 1)).toList

/-- The plain notation: `100`, `0.5`, `0.00001`, never an exponent. -/
def plain (x : Single) : String :=
  match parts x with
  | .notANumber => "NaN"
  | .infinite negative => String.ofList (signText negative ++ ['i', 'n', 'f'])
  | .finite negative 0 _ => String.ofList (signText negative ++ ['0'])
  | .finite negative m e =>
    String.ofList (signText negative ++ DecimalDigits.positional (shortestDigits m e))

/-- The marked notation: `100.0`, `0.5`, and an exponent below `0.0001` and from `1e16` on. -/
def marked (x : Single) : String :=
  match parts x with
  | .notANumber => "NaN"
  | .infinite negative => String.ofList (signText negative ++ ['i', 'n', 'f'])
  | .finite negative 0 _ => String.ofList (signText negative ++ ['0', '.', '0'])
  | .finite negative m e =>
    let d := shortestDigits m e
    let body :=
      if d.point < -3 ∨ 16 < d.point then DecimalDigits.scientific d
      else if d.digits.length ≤ d.point then DecimalDigits.positional d ++ ['.', '0']
      else DecimalDigits.positional d
    String.ofList (signText negative ++ body)

end Single

end Timbre
