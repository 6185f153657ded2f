import Timbre.Config
import Timbre.Text.Json

/-! # Configurations written in JSON

A configuration is an object, or a list with the settings in their order. A setting that is not
given has its default, other fields of the object mean nothing, and no setting is given twice.
-/
namespace Timbre.Config

/-- The names of the settings in their order. -/
def settings : List String := ["threads", "memory_limit", "validate_outputs", "dump_graph"]

def given? : Json → Option (List (String × Json))
  | .list vs => if vs.length ≤ settings.length then some (settings.zip vs) else none
  | .object fs => do
    let entries ← fs.mapM fun f => f.1.map fun name => (name, f.2)
    let entries := entries.filter fun e => settings.contains e.1
    if (entries.map (·.1)).Nodup then some entries else none
  | _ => none

def size? : Json → Option (Option Nat)
  | .null => some none
  | .number (some n) => if n ≤ maxSize then some (some n) else none
  | _ => none

def flag? : Json → Option Bool
  | .bool b => some b
  | _ => none

def path? : Json → Option (Option String)
  | .null => some none
  | .string (some s) => some (some s)
  | _ => none

/-- The value of a setting, or its default where it is not given. -/
def setting? {α : Type} (entries : List (String × Json)) (name : String) (read : Json → Option α)
    (otherwise : α) : Option α :=
  match entries.lookup name with
  | none => some otherwise
  | some v => read v

def ofJson? (v : Json) : Option Config := do
  let entries ← given? v
  return {
    threads := ← setting? entries "threads" size? none
    memoryLimit := ← setting? entries "memory_limit" size? none
    validateOutputs := ← setting? entries "validate_outputs" flag? false
    dumpGraph := ← setting? entries "dump_graph" path? none }

/-- The configuration that is written in a text. -/
def ofText? (text : String) : Option Config := Json.ofText? text >>= ofJson?

end Timbre.Config
