import Timbre.Number.Arithmetic
import Timbre.Number.Shortest

/-! # Samples

The values that buffers hold: whole numbers of 16 or 32 bits, single-precision numbers, and tuples
of single-precision numbers of a fixed length.
-/
namespace Timbre

inductive SampleType
  | int16
  | int32
  | single
  | tuple (length : Nat)
deriving DecidableEq, Repr

namespace SampleType

@[reducible] def Value : SampleType → Type
  | .int16 => Int16
  | .int32 => Int32
  | .single => Single
  | .tuple n => Vector Single n

def name : SampleType → String
  | .int16 => "i16"
  | .int32 => "i32"
  | .single => "f32"
  | .tuple n => s!"[f32; {n}]"

def bytes : SampleType → Nat
  | .int16 => 2
  | .int32 => 4
  | .single => 4
  | .tuple n => 4 * n

def zero : (s : SampleType) → s.Value
  | .int16 => 0
  | .int32 => 0
  | .single => 0
  | .tuple n => Vector.replicate n 0

/-- Whole numbers are always valid; a single-precision number is valid if it is finite. -/
def isValid : (s : SampleType) → s.Value → Bool
  | .int16, _ => true
  | .int32, _ => true
  | .single, x => Single.isFinite x
  | .tuple _, v => v.all Single.isFinite

def text : (s : SampleType) → s.Value → String
  | .int16, x => toString x.toInt
  | .int32, x => toString x.toInt
  | .single, x => Single.marked x
  | .tuple _, v => "[" ++ ", ".intercalate (v.toList.map Single.marked) ++ "]"

end SampleType

end Timbre
