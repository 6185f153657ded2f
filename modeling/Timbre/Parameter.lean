import Timbre.Number.Arithmetic
import Timbre.Number.Decimal
import Timbre.Number.Integer
import Timbre.Number.Shortest
import Timbre.Text.Blank

/-! # Parameters

A parameter has a name, a description and a default, and its value arrives as text. The readers
below turn a text into a value or say what is wrong with it. `Params` holds the values given by
name: each name once, in increasing order, so that two maps with the same values are equal.
-/
namespace Timbre

structure ParameterSpec where
  name : String
  description : String
  /-- In the form in which values are given. -/
  default : String
deriving DecidableEq, Repr

inductive ValueProblem
  | integer (cause : IntegerError)
  | number (cause : DecimalError)
  | outside (least greatest : String)
  | notPositive
  | notBoolean (text : String)
  | notAmong (choices : List String)
  | noLeaves
  | tooDeep (depth limit : Nat)
  | noTypes
deriving DecidableEq, Repr

def ValueProblem.message : ValueProblem → String
  | .integer cause => cause.message
  | .number cause => cause.message
  | .outside least greatest => s!"must be in range [{least}, {greatest}]"
  | .notPositive => "must be greater than 0"
  | .notBoolean text => "'" ++ text ++ "' is not a boolean"
  | .notAmong choices => "must be one of: " ++ ", ".intercalate choices
  | .noLeaves => "the tree has no leaves"
  | .tooDeep depth limit => s!"depth {depth} exceeds {limit}"
  | .noTypes => "at least one type is required"

inductive ParameterError
  | unknown
  | invalid (problem : ValueProblem)
deriving DecidableEq, Repr

def ParameterError.message : ParameterError → String
  | .unknown => "unknown parameter"
  | .invalid problem => problem.message

namespace Parameter

/-- An integer, blanks around it aside. -/
def readInteger (range : IntegerRange) (text : List Char) : Except ValueProblem Int :=
  (range.read (Text.trim text)).mapError .integer

def readSingle (text : List Char) : Except ValueProblem Single :=
  (Single.read (Text.trim text)).mapError .number

def readIntegerWithin (range : IntegerRange) (least greatest : Int) (text : List Char) :
    Except ValueProblem Int :=
  match readInteger range text with
  | .error e => .error e
  | .ok n =>
    if least ≤ n ∧ n ≤ greatest then .ok n
    else .error (.outside (toString least) (toString greatest))

def readSingleWithin (least greatest : Single) (text : List Char) :
    Except ValueProblem Single :=
  match readSingle text with
  | .error e => .error e
  | .ok x =>
    if least ≤ x ∧ x ≤ greatest then .ok x
    else .error (.outside (Single.plain least) (Single.plain greatest))

def readSize (least greatest : Nat) (text : List Char) : Except ValueProblem Nat :=
  (readIntegerWithin (.unsigned 64) least greatest text).map Int.toNat

/-- A number of 32 bits between `least` and `greatest`. -/
def readWord (least greatest : Nat) (text : List Char) : Except ValueProblem Nat :=
  (readIntegerWithin (.unsigned 32) least greatest text).map Int.toNat

def readPositive (text : List Char) : Except ValueProblem Single :=
  match readSingle text with
  | .error e => .error e
  | .ok x => if Single.isFinite x ∧ 0 < x then .ok x else .error .notPositive

/-- `true`, `1`, `yes` or `false`, `0`, `no` in any case. -/
def readBool (text : List Char) : Except ValueProblem Bool :=
  let word := String.ofList ((Text.trim text).map Text.lower)
  if word = "true" ∨ word = "1" ∨ word = "yes" then .ok true
  else if word = "false" ∨ word = "0" ∨ word = "no" then .ok false
  else .error (.notBoolean word)

/-- The value of the first name that equals the text up to case. -/
def readChoice {α : Type} (choices : List (String × α)) (text : List Char) :
    Except ValueProblem α :=
  match choices.find? fun c => Text.sameLetters c.1.toList (Text.trim text) with
  | some c => .ok c.2
  | none => .error (.notAmong (choices.map (·.1)))

/-- Commas and blanks separate the items of a list. -/
def isSeparator (c : Char) : Bool := c == ',' || Text.isBlank c

/-- Every item read from the left; the first bad one is the answer. -/
def readList {α : Type} (item : List Char → Except ValueProblem α) (text : List Char) :
    Except ValueProblem (List α) :=
  (Text.fields isSeparator text).mapM item

end Parameter

structure Params where
  entries : List (String × String)
  increasing : entries.Pairwise (fun a b => a.1 < b.1)
deriving DecidableEq

namespace Params

/-- Puts an entry at its place, over one of the same name. -/
def insertEntry (name value : String) : List (String × String) → List (String × String)
  | [] => [(name, value)]
  | e :: es =>
    if name < e.1 then (name, value) :: e :: es
    else if e.1 < name then e :: insertEntry name value es
    else (name, value) :: es

theorem mem_insertEntry {name value : String} {a : String × String}
    {es : List (String × String)} (h : a ∈ insertEntry name value es) :
    a = (name, value) ∨ a ∈ es := by
  induction es with
  | nil => simpa [insertEntry] using h
  | cons e es ih =>
    unfold insertEntry at h
    split at h
    · simpa using h
    · split at h
      · rcases List.mem_cons.1 h with rfl | h
        · simp
        · rcases ih h with h | h <;> simp [h]
      · rcases List.mem_cons.1 h with h | h <;> simp [h]

theorem insertEntry_increasing (name value : String) {es : List (String × String)}
    (h : es.Pairwise (fun a b => a.1 < b.1)) :
    (insertEntry name value es).Pairwise (fun a b => a.1 < b.1) := by
  induction es with
  | nil => simp [insertEntry]
  | cons e es ih =>
    rw [List.pairwise_cons] at h
    unfold insertEntry
    split
    · rename_i hlt
      rw [List.pairwise_cons, List.pairwise_cons]
      refine ⟨fun a ha => ?_, h.1, h.2⟩
      rcases List.mem_cons.1 ha with rfl | ha
      · exact hlt
      · exact String.lt_trans hlt (h.1 a ha)
    · rename_i hnlt
      split
      · rename_i hgt
        rw [List.pairwise_cons]
        refine ⟨fun a ha => ?_, ih h.2⟩
        rcases mem_insertEntry ha with rfl | ha
        · exact hgt
        · exact h.1 a ha
      · rename_i hngt
        have he : name = e.1 := String.le_antisymm (String.not_lt.1 hngt) (String.not_lt.1 hnlt)
        rw [List.pairwise_cons]
        exact ⟨fun a ha => he ▸ h.1 a ha, h.2⟩

def empty : Params := ⟨[], .nil⟩

def insert (p : Params) (name value : String) : Params :=
  ⟨insertEntry name value p.entries, insertEntry_increasing name value p.increasing⟩

/-- The last value given for a name counts. -/
def ofList (es : List (String × String)) : Params :=
  es.foldl (fun p e => p.insert e.1 e.2) empty

end Params

end Timbre
