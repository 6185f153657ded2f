import Timbre.Error

/-! # Configuration of a pipeline -/
namespace Timbre

structure Config where
  /-- The number of worker threads; if it is not given, what the machine offers. -/
  threads : Option Nat := none
  /-- The largest footprint in bytes. -/
  memoryLimit : Option Nat := none
  /-- Whether the output of every stage is checked. -/
  validateOutputs : Bool := false
  /-- The path of a file that takes the graph of the lifetime tree. -/
  dumpGraph : Option String := none
deriving DecidableEq, Repr

namespace Config

/-- The first bound that does not hold is the answer. -/
def validate (c : Config) : Except Error Unit :=
  match c.threads.filter fun n => n = 0 ∨ maxThreads < n with
  | some n => .error (.invalidConfig (.threads n))
  | none =>
    if c.memoryLimit = some 0 then .error (.invalidConfig .noMemory)
    else if c.dumpGraph = some "" then .error (.invalidConfig .emptyPath)
    else .ok ()

/-- The number of workers where the machine offers `available`; at least one. -/
def workers (c : Config) (available : Nat) : Nat := max (c.threads.getD available) 1

end Config

end Timbre
