import Timbre.Error
import Timbre.Format.Sample

/-! # Formats

A format says what the buffers between two stages hold: arrays of samples of one length, one sample
each, or nothing known (the identity format, which stands for any). It also carries the sampling
rate of the signal that the buffers come from, once that is known.

Identities of formats are compared with a wildcard: the identity format matches every format, on
either side, so matching is not transitive.
-/
namespace Timbre

/-- Buffer footprints are padded to a multiple of this many bytes. -/
def alignment : Nat := 64

/-- The least multiple of the alignment that is not below `size`. -/
def aligned (size : Nat) : Nat := (size + (alignment - 1)) / alignment * alignment

theorem aligned_mod (size : Nat) : aligned size % alignment = 0 := by
  simp [aligned]

theorem le_aligned (size : Nat) : size ≤ aligned size := by
  unfold aligned alignment
  omega

structure Rate where
  hz : Nat
  minRate_le : minRate ≤ hz
  le_maxRate : hz ≤ maxRate
deriving DecidableEq, Repr

def Rate.ofHz (hz : Nat) : Except Error Rate :=
  if h : minRate ≤ hz ∧ hz ≤ maxRate then .ok ⟨hz, h.1, h.2⟩
  else .error (.invalidSamplingRate hz)

/-- The identity of a format: a name, or the wildcard. -/
inductive FormatId
  | concrete (name : String)
  | identity
deriving DecidableEq, Repr

namespace FormatId

def name : FormatId → String
  | .concrete name => name
  | .identity => "identity"

def isIdentity : FormatId → Bool
  | .identity => true
  | .concrete _ => false

/-- The wildcard matches everything; names match if they are equal. -/
def sameAs : FormatId → FormatId → Bool
  | .concrete a, .concrete b => a == b
  | _, _ => true

@[simp] theorem sameAs_self (a : FormatId) : a.sameAs a = true := by
  cases a <;> simp [sameAs]

theorem sameAs_comm (a b : FormatId) : a.sameAs b = b.sameAs a := by
  cases a <;> cases b <;> simp [sameAs, Bool.beq_comm]

end FormatId

/-- What one buffer holds. -/
inductive Kind
  | array (sample : SampleType)
  | single (sample : SampleType)
  | identity
deriving DecidableEq, Repr

namespace Kind

@[reducible] def Element : Kind → Type
  | .array s => Array s.Value
  | .single s => s.Value
  | .identity => Unit

/-- What a format of this kind fixes besides the kind: the length of an array. -/
@[reducible] def Extent : Kind → Type
  | .array _ => Nat
  | .single _ => Unit
  | .identity => Unit

instance (k : Kind) : DecidableEq k.Extent :=
  match k with
  | .array _ => inferInstanceAs (DecidableEq Nat)
  | .single _ => inferInstanceAs (DecidableEq Unit)
  | .identity => inferInstanceAs (DecidableEq Unit)

def defaultExtent : (k : Kind) → k.Extent
  | .array _ => (0 : Nat)
  | .single _ => ()
  | .identity => ()

def id : Kind → FormatId
  | .array s => .concrete ("ArrayFormat<" ++ s.name ++ ">")
  | .single s => .concrete ("SingleFormat<" ++ s.name ++ ">")
  | .identity => .identity

end Kind

structure Format (k : Kind) where
  extent : k.Extent
  /-- Unset until the source of the signal is known. -/
  rate : Option Rate := none
deriving DecidableEq

namespace Format

variable {k : Kind}

/-- Empty arrays, or the one format of any other kind, with no rate. -/
def initial (k : Kind) : Format k := ⟨k.defaultExtent, none⟩

def id (_ : Format k) : FormatId := k.id

def size {s : SampleType} (f : Format (.array s)) : Nat := f.extent

def withSize {s : SampleType} (f : Format (.array s)) (size : Nat) : Format (.array s) :=
  { f with extent := size }

@[simp] theorem size_withSize {s : SampleType} (f : Format (.array s)) (n : Nat) :
    (f.withSize n).size = n := rfl

def samplingRate (f : Format k) : Except Error Nat :=
  match f.rate with
  | some rate => .ok rate.hz
  | none => .error (.samplingRateNotSet f.id.name)

/-- The format with another rate; it keeps its own where the rate is out of bounds. -/
def withRate (f : Format k) (hz : Nat) : Except Error (Format k) :=
  (Rate.ofHz hz).map fun rate => { f with rate := some rate }

/-- What describes the source signal, the rate, goes on from one format to another. -/
def takeSource {j : Kind} (f : Format k) (source : Format j) : Except Error (Format k) :=
  match source.samplingRate with
  | .ok hz => f.withRate hz
  | .error e => .error e

def bytes : {k : Kind} → Format k → Nat
  | .array s, f => f.extent * s.bytes
  | .single s, _ => s.bytes
  | .identity, _ => 0

/-- Bytes of one element, padded. -/
def paddedBytes (f : Format k) : Nat := aligned f.bytes

def describe : {k : Kind} → Format k → String
  | .array s, f =>
    let base := (Kind.array s).id.name ++ " [" ++ toString (f.extent : Nat) ++ "]"
    match f.rate with
    | some rate => base ++ " @ " ++ toString rate.hz ++ " Hz"
    | none => base
  | .single s, _ => (Kind.single s).id.name
  | .identity, _ => Kind.identity.id.name

/-- The duration of one array in seconds. -/
def seconds {s : SampleType} (f : Format (.array s)) : Option Float :=
  f.rate.map fun rate => f.size.toUInt64.toFloat / rate.hz.toUInt64.toFloat

/-- An element of the right shape, with zeros. -/
def newElement : {k : Kind} → Format k → k.Element
  | .array s, f => Array.replicate f.extent s.zero
  | .single s, _ => s.zero
  | .identity, _ => ()

/-- What is wrong with an element: first its length, then its first bad sample. -/
def flaw? : {k : Kind} → Format k → k.Element → Option Flaw
  | .array s, f, xs =>
    if xs.size = f.extent then
      (xs.toList.zipIdx.find? fun p => !s.isValid p.1).map fun p => .sample p.2 (s.text p.1)
    else some (.length xs.size f.extent)
  | .single s, _, x => if s.isValid x then none else some (.value (s.text x))
  | .identity, _, _ => none

def elementText : {k : Kind} → Format k → k.Element → String
  | .array s, _, xs => " ".intercalate (xs.toList.map s.text)
  | .single s, _, x => s.text x
  | .identity, _, _ => ""

end Format

/-- A format of some kind. -/
structure AnyFormat where
  kind : Kind
  format : Format kind
deriving DecidableEq

namespace AnyFormat

def id (f : AnyFormat) : FormatId := f.kind.id

/-- The format, if it is of kind `k`. -/
def as? (k : Kind) (f : AnyFormat) : Option (Format k) :=
  if h : f.kind = k then some (h ▸ f.format) else none

@[simp] theorem as?_mk (k : Kind) (f : Format k) : as? k ⟨k, f⟩ = some f := by simp [as?]

theorem as?_eq_some_iff {k : Kind} {f : AnyFormat} {g : Format k} :
    f.as? k = some g ↔ f = ⟨k, g⟩ := by
  constructor
  · intro h
    cases f with
    | mk j f =>
      unfold as? at h
      split at h
      · rename_i hk
        cases hk
        cases h
        rfl
      · cases h
  · rintro rfl
    exact as?_mk k g

end AnyFormat

end Timbre
