import Timbre.Error

/-! # Warnings

A call may give warnings beside its answer, whether it succeeds or fails; their order is the order
in which they were given.
-/
namespace Timbre

universe u v

inductive Warning
  /-- A spectrum of odd size was accepted. -/
  | oddSize (transform format : String)
  /-- A transform was registered under a name in use. -/
  | replaced (transform : String)
  /-- The output of a stage does not pass its format's check. -/
  | invalidOutput (stage : String) (position : Nat) (error : Error)
  /-- A kernel without a plan wrote nothing. -/
  | unprepared (transform : String)
deriving DecidableEq

namespace Warning

def message : Warning → String
  | .oddSize .. => "Odd input size, the last value is ignored"
  | .replaced _ => "Replacing registered transform"
  | .invalidOutput .. => "Stage produced invalid values"
  | .unprepared _ => "Executed before initialize"

/-- The named data that go with the message. -/
def details : Warning → List (String × String)
  | .oddSize transform format => [("transform", transform), ("format", format)]
  | .replaced transform => [("transform", transform)]
  | .invalidOutput stage position error =>
    [("stage", stage), ("position", toString position), ("error", error.message)]
  | .unprepared transform => [("transform", transform)]

end Warning

/-- What a call that keeps a state leaves behind: the state, whatever the answer; the answer; and
the warnings given on the way. -/
structure Outcome (σ : Type u) (α : Type v) where
  state : σ
  answer : Except Error α
  warnings : List Warning := []

end Timbre
