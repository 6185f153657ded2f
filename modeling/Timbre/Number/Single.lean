/-! # Single-precision numbers

A number is the 32 bits that hold it, so a signaling NaN stays apart from a quiet one for as long as
no arithmetic touches it. A finite number is `± mantissa · 2 ^ exponent`; the parts are read off the
bits. Rounding goes from an exact quotient of natural numbers to the nearest single-precision
number, a tie to the even mantissa.
-/
namespace Timbre

structure Single where
  bits : UInt32
deriving DecidableEq, Repr, Inhabited

inductive SingleParts
  | finite (negative : Bool) (mantissa : Nat) (exponent : Int)
  | infinite (negative : Bool)
  | notANumber
deriving DecidableEq, Repr

namespace Single

def infinity : Single := ⟨0x7F800000⟩

def quietNaN : Single := ⟨0x7FC00000⟩

/-- The exponent as it is stored; the greatest one stands for infinity and NaN. -/
def exponentField (x : Single) : Nat := x.bits.toNat / 0x800000 % 0x100

def fraction (x : Single) : Nat := x.bits.toNat % 0x800000

def isFinite (x : Single) : Bool := x.exponentField != 255

def isInf (x : Single) : Bool := x.exponentField == 255 && x.fraction == 0

/-- A NaN whose first fraction bit is not set. -/
def isSignaling (x : Single) : Bool :=
  x.exponentField == 255 && 0 < x.fraction && x.fraction < 0x400000

def parts (x : Single) : SingleParts :=
  let negative := 0x80000000 ≤ x.bits.toNat
  let field := x.exponentField
  if field = 255 then (if x.fraction = 0 then .infinite negative else .notANumber)
  else if field = 0 then .finite negative x.fraction (-149)
  else .finite negative (0x800000 + x.fraction) (field - 150)

/-- The nearest natural number to `num / den`, a tie to the even one. -/
def roundDiv (num den : Nat) : Nat :=
  let q := num / den
  let r := num % den
  if 2 * r < den then q else if den < 2 * r then q + 1 else q + q % 2

/-- The exponent of the last mantissa bit of a number near `num / den`. -/
def lastBit (num den : Nat) : Int :=
  let guess : Int := (num.log2 : Int) - den.log2
  let below := if 0 ≤ guess then num < den <<< guess.toNat else num <<< (-guess).toNat < den
  max (-149) ((if below then guess - 1 else guess) - 23)

/-- The bits of the nearest single-precision number to `num / den`. A mantissa that rounds up to
the next power of two moves on to the next exponent by itself. -/
def nearestBits (num den : Nat) : Nat :=
  if num = 0 then 0
  else
    let e := lastBit num den
    let m := if 0 ≤ e then roundDiv num (den <<< e.toNat) else roundDiv (num <<< (-e).toNat) den
    let bits := if m < 0x800000 then m else (e + 150).toNat * 0x800000 + (m - 0x800000)
    min bits 0x7F800000

def nearest (negative : Bool) (num den : Nat) : Single :=
  ⟨UInt32.ofNat (nearestBits num den + if negative then 0x80000000 else 0)⟩

/-- The nearest single-precision number to `± mantissa · 10 ^ exponent`. Beyond the powers of ten
that can matter the answer is known without forming them. -/
def ofDecimal (negative : Bool) (mantissa : Nat) (exponent : Int) : Single :=
  let digits : Int := (Nat.toDigits 10 mantissa).length
  if mantissa = 0 then nearest negative 0 1
  else if 60 < digits + exponent then nearest negative (1 <<< 200) 1
  else if digits + exponent < -60 then nearest negative 0 1
  else if 0 ≤ exponent then nearest negative (mantissa * Nat.pow 10 exponent.toNat) 1
  else nearest negative mantissa (Nat.pow 10 (-exponent).toNat)

/-- The natural number that `n` becomes when written in single precision: `n` itself up to
`2 ^ 24`, and above that `n` rounded to 24 significant bits. -/
def nearestIndex (n : Nat) : Nat :=
  if n ≤ 0x1000000 then n
  else
    let unit := 1 <<< (n.log2 - 23)
    roundDiv n unit * unit

end Single

end Timbre
