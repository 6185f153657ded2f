import Timbre.Number.Single

/-! # Arithmetic in single precision

Every operation is that of `Float32` on the numbers that the bits stand for. `Float32` knows one
NaN, so no result is a signaling one. Literals are read exactly and rounded once.
-/
namespace Timbre.Single

/-- The number that the bits stand for; all NaN become one. -/
def toFloat32 (x : Single) : Float32 := Float32.ofBits x.bits

def ofFloat32 (x : Float32) : Single := ⟨x.toBits⟩

def toDouble (x : Single) : Float := x.toFloat32.toFloat

/-- The nearest number in single precision. -/
def ofDouble (x : Float) : Single := ofFloat32 x.toFloat32

def ofInt16 (n : Int16) : Single := ofFloat32 n.toFloat32

/-- An operation on the number that the bits stand for. -/
@[inline] def lift (f : Float32 → Float32) (x : Single) : Single := ofFloat32 (f x.toFloat32)

/-- An operation on the numbers that two patterns of bits stand for. -/
@[inline] def lift₂ (f : Float32 → Float32 → Float32) (x y : Single) : Single :=
  ofFloat32 (f x.toFloat32 y.toFloat32)

instance : Add Single := ⟨lift₂ (· + ·)⟩

instance : Sub Single := ⟨lift₂ (· - ·)⟩

instance : Mul Single := ⟨lift₂ (· * ·)⟩

instance : Div Single := ⟨lift₂ (· / ·)⟩

instance : Neg Single := ⟨lift (- ·)⟩

instance : LT Single := ⟨fun x y => x.toFloat32 < y.toFloat32⟩

instance : LE Single := ⟨fun x y => x.toFloat32 ≤ y.toFloat32⟩

instance : DecidableLT Single := fun x y => inferInstanceAs (Decidable (x.toFloat32 < y.toFloat32))

instance : DecidableLE Single := fun x y => inferInstanceAs (Decidable (x.toFloat32 ≤ y.toFloat32))

instance natCastSingle : NatCast Single := ⟨fun n => ofFloat32 n.toUInt64.toFloat32⟩

instance (n : Nat) : OfNat Single n := ⟨nearest false n 1⟩

instance : OfScientific Single where
  ofScientific mantissa negative exponent :=
    ofDecimal false mantissa (if negative then -(exponent : Int) else exponent)

/-- The whole number that `whole` makes of the magnitude `mantissa / unit`, with the sign of the
number. All NaN become one. -/
def toWhole (whole : Bool → Nat → Nat → Nat) (x : Single) : Single :=
  match x.parts with
  | .notANumber => quietNaN
  | .infinite _ => x
  | .finite negative mantissa exponent =>
    if 0 ≤ exponent then x
    else nearest negative (whole negative mantissa (1 <<< (-exponent).toNat)) 1

/-- The greatest whole number that is not above: its magnitude is rounded up below zero. -/
def floor : Single → Single := toWhole fun negative mantissa unit =>
  if negative then (mantissa + (unit - 1)) / unit else mantissa / unit

def ceil : Single → Single := toWhole fun negative mantissa unit =>
  if negative then mantissa / unit else (mantissa + (unit - 1)) / unit

/-- A half goes away from zero. -/
def round : Single → Single := toWhole fun _ mantissa unit => (2 * mantissa + unit) / (2 * unit)

def exp : Single → Single := lift Float32.exp

def log : Single → Single := lift Float32.log

def cos : Single → Single := lift Float32.cos

def pow : Single → Single → Single := lift₂ Float32.pow

/-- The whole part, at most the greatest number of 64 bits; zero for what is below zero or NaN. -/
def toNat (x : Single) : Nat := x.toFloat32.toUInt64.toNat

def pi : Single := 3.14159274

def invSqrtTwo : Single := 0.70710678

/-- The length of the hypotenuse, without overflow on the way. An infinite leg decides, unless the
other one is a signaling NaN. -/
def hypot (x y : Single) : Single :=
  if x.isSignaling || y.isSignaling then quietNaN
  else if x.isInf || y.isInf then infinity
  else ofDouble (x.toDouble * x.toDouble + y.toDouble * y.toDouble).sqrt

end Timbre.Single
