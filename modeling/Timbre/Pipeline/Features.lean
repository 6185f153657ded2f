import Timbre.Buffers

/-! # Features

The results of a run under their names. Several names may stand for the same collection.
-/
namespace Timbre

/-- Collections by name: each name once, in increasing order. -/
structure Features where
  entries : List (String × AnyBuffers)

namespace Features

def empty : Features := ⟨[]⟩

/-- Puts an entry at its place, over one of the same name. -/
def insertEntry (name : String) (b : AnyBuffers) :
    List (String × AnyBuffers) → List (String × AnyBuffers)
  | [] => [(name, b)]
  | e :: es =>
    if name < e.1 then (name, b) :: e :: es
    else if e.1 < name then e :: insertEntry name b es
    else (name, b) :: es

/-- Stores a collection under every one of the names. -/
def insert (f : Features) (names : List String) (b : AnyBuffers) : Features :=
  ⟨names.foldl (fun es name => insertEntry name b es) f.entries⟩

def find? (f : Features) (name : String) : Option AnyBuffers := f.entries.lookup name

def names (f : Features) : List String := f.entries.map (·.1)

def size (f : Features) : Nat := f.entries.length

def debugText (f : Features) : String :=
  Text.showMap (f.entries.map fun e => (Text.quote e.1, e.2.debugText))

end Features

end Timbre
