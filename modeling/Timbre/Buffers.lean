import Timbre.Format.Basic
import Timbre.Text.Quoted

/-! # Buffer collections

A collection holds elements of one format in order. It starts empty and is filled once; elements
given from outside need not have the shape that the format asks for, which is what `validate` is
for. `AnyBuffers` hides the kind; a check by identity alone does not tell the identity format from
another kind, so the kind itself is looked at as well.
-/
namespace Timbre

structure Buffers (k : Kind) where
  format : Format k
  elements : Array k.Element
  initialized : Bool

namespace Buffers

variable {k : Kind}

def new (format : Format k) : Buffers k := ⟨format, #[], false⟩

/-- A filled collection of the given elements, of whatever shape. -/
def ofElements (format : Format k) (elements : Array k.Element) : Buffers k :=
  ⟨format, elements, true⟩

def fresh (format : Format k) (count : Nat) : Buffers k :=
  ofElements format (Array.replicate count format.newElement)

def count (b : Buffers k) : Nat := b.elements.size

/-- Fills the collection, once. -/
def fill (b : Buffers k) (elements : Array k.Element) : Except Error (Buffers k) :=
  if b.initialized then .error .alreadyInitialized
  else .ok { b with elements := elements, initialized := true }

def fillFresh (b : Buffers k) (count : Nat) : Except Error (Buffers k) :=
  b.fill (Array.replicate count b.format.newElement)

/-- The collection with another element at a position that it has. -/
def put (b : Buffers k) (index : Nat) (x : k.Element) : Buffers k :=
  { b with elements := b.elements.setIfInBounds index x }

def debugText (b : Buffers k) : String :=
  Text.showRecord "Buffers"
    [("format", Text.quote b.format.describe), ("count", toString b.count),
      ("initialized", toString b.initialized)]

end Buffers

structure AnyBuffers where
  kind : Kind
  buffers : Buffers kind

namespace AnyBuffers

def format (b : AnyBuffers) : AnyFormat := ⟨b.kind, b.buffers.format⟩

def id (b : AnyBuffers) : FormatId := b.kind.id

def count (b : AnyBuffers) : Nat := b.buffers.count

/-- The collection, if it is of kind `k`. -/
def as? (k : Kind) (b : AnyBuffers) : Option (Buffers k) :=
  if h : b.kind = k then some (h ▸ b.buffers) else none

@[simp] theorem as?_mk (k : Kind) (b : Buffers k) : as? k ⟨k, b⟩ = some b := by simp [as?]

theorem as?_eq_some_iff {k : Kind} {b : AnyBuffers} {c : Buffers k} :
    b.as? k = some c ↔ b = ⟨k, c⟩ := by
  constructor
  · intro h
    cases b with
    | mk j b =>
      unfold as? at h
      split at h
      · rename_i hk
        cases hk
        cases h
        rfl
      · cases h
  · rintro rfl
    exact as?_mk k c

def debugText (b : AnyBuffers) : String :=
  Text.showRecord "AnyBuffers"
    [("format", Text.quote b.buffers.format.describe), ("count", toString b.count)]

end AnyBuffers

def Error.mismatch (expected found : FormatId) : Error :=
  .formatMismatch expected.name found.name

namespace Format

variable {k : Kind}

/-- The collection as one of the format's kind: its identity has to match first. -/
def downcast (_ : Format k) (b : AnyBuffers) : Except Error (Buffers k) :=
  if k.id.sameAs b.id then
    match b.as? k with
    | some c => .ok c
    | none => .error (.mismatch k.id b.id)
  else .error (.mismatch k.id b.id)

def firstFlaw? (f : Format k) (elements : List k.Element) : Option (Nat × Flaw) :=
  elements.zipIdx.findSome? fun p => (f.flaw? p.1).map (p.2, ·)

/-- Checks every element; the identity format takes anything. -/
def validate : {k : Kind} → Format k → AnyBuffers → Except Error Unit
  | .identity, _, _ => .ok ()
  | _, f, b =>
    match f.downcast b with
    | .error e => .error e
    | .ok c =>
      match f.firstFlaw? c.elements.toList with
      | some (index, flaw) => .error (.invalidBuffer f.describe index flaw)
      | none => .ok ()

/-- The elements as text, one to a line. -/
def dump : {k : Kind} → Format k → AnyBuffers → Except Error String
  | .identity, _, _ => .ok "<empty>"
  | _, f, b =>
    match f.downcast b with
    | .error e => .error e
    | .ok c =>
      .ok <| "Buffers count: " ++ toString c.count ++ "\n" ++
        String.join (c.elements.toList.mapIdx fun i x =>
          "[" ++ toString i ++ "] " ++ f.elementText x ++ "\n")

end Format

namespace AnyBuffers

/-- A format that checks or dumps a collection has to match the collection's own. -/
def checkFormat (b : AnyBuffers) (f : AnyFormat) : Except Error Unit :=
  if b.id.sameAs f.id then .ok () else .error (.mismatch f.id b.id)

def validate (b : AnyBuffers) (f : AnyFormat) : Except Error Unit :=
  match b.checkFormat f with
  | .error e => .error e
  | .ok () => f.format.validate b

def dump (b : AnyBuffers) (f : AnyFormat) : Except Error String :=
  match b.checkFormat f with
  | .error e => .error e
  | .ok () => f.format.dump b

end AnyBuffers

end Timbre
