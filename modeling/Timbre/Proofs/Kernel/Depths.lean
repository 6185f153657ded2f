import Timbre.Proofs.Number.Digits
import Timbre.Proofs.Stage.Rewiring

/-! # Depths that are written down

Depths in decimal, with any commas and blanks between them and around them, are read as they are
written. They become the tree if there is at least one and none is too deep; any others are refused,
and the tree stays what it was. Main statement: `setParameter_of_listed`.
-/
namespace Timbre.Subbands

variable {depths : List Nat} {problem : ValueProblem} {text : List Char}

/-- The depths can be those of the leaves of a tree, as far as single depths tell. -/
def Admissible (depths : List Nat) : Prop := depths ≠ [] ∧ ∀ d ∈ depths, d ≤ maxDepth

instance (depths : List Nat) : Decidable (Admissible depths) :=
  inferInstanceAs (Decidable (depths ≠ [] ∧ ∀ d ∈ depths, d ≤ maxDepth))

/-- What is wrong with other depths: there is none, or one is too deep, and of several the first. -/
inductive Inadmissible : List Nat → ValueProblem → Prop
  | noLeaves : Inadmissible [] .noLeaves
  | tooDeep {before after : List Nat} {d : Nat} (hbefore : ∀ e ∈ before, e ≤ maxDepth)
    (hd : maxDepth < d) : Inadmissible (before ++ d :: after) (.tooDeep d maxDepth)

theorem find?_append_eq_some {before after : List Nat} {d : Nat}
    (hbefore : ∀ e ∈ before, e ≤ maxDepth) (hd : maxDepth < d) :
    (before ++ d :: after).find? (maxDepth < ·) = some d := by
  refine List.find?_eq_some_iff_append.2 ⟨decide_eq_true hd, before, after, rfl, fun e he => ?_⟩
  simpa using hbefore e he

theorem exists_inadmissible (h : ¬ Admissible depths) : ∃ problem, Inadmissible depths problem := by
  cases hfind : depths.find? (maxDepth < ·) with
  | none =>
    have hall : ∀ d ∈ depths, d ≤ maxDepth := fun d hd => by
      simpa using List.find?_eq_none.1 hfind d hd
    obtain rfl : depths = [] := by
      by_contra hne
      exact h ⟨hne, hall⟩
    exact ⟨_, .noLeaves⟩
  | some d =>
    obtain ⟨hd, before, after, rfl, hbefore⟩ := List.find?_eq_some_iff_append.1 hfind
    exact ⟨_, .tooDeep (fun e he => by simpa using hbefore e he) (of_decide_eq_true hd)⟩

section Reading

variable (hread : Parameter.readList (fun item =>
  (Parameter.readInteger (.unsigned 32) item).map Int.toNat) text = .ok depths)
include hread

theorem readDepths_of_admissible (h : Admissible depths) : readDepths text = .ok depths := by
  have hfind : depths.find? (maxDepth < ·) = none :=
    List.find?_eq_none.2 fun d hd => by simpa using h.2 d hd
  have hne : depths.isEmpty = false := List.isEmpty_eq_false_iff.2 h.1
  rw [readDepths, hread]
  dsimp only [bind, Except.bind]
  rw [hne, hfind]
  rfl

theorem readDepths_of_inadmissible (h : Inadmissible depths problem) :
    readDepths text = .error problem := by
  rw [readDepths, hread]
  dsimp only [bind, Except.bind]
  cases h with
  | noLeaves => rfl
  | @tooDeep before after d hbefore hd =>
    have hne : (before ++ d :: after).isEmpty = false := by simp
    rw [hne, find?_append_eq_some hbefore hd]
    rfl

end Reading

theorem set_tree (tree : kernel.Settings) (text : List Char) :
    kernel.set tree "tree" text = setting (readDepths text) := rfl

/-- Depths of 32 bits that are written in decimal, with commas and blanks between any two of them
and perhaps at both ends, are read in their order. They become the tree of a stage if they are
admissible; otherwise the call says what is wrong with them, and the stage stays as it was. -/
theorem setParameter_of_listed {text : String} (hbits : ∀ d ∈ depths, d < 2 ^ 32)
    (htext : Text.Listed Parameter.isSeparator (depths.map decimal) text.toList) :
    Parameter.readList (Parameter.readInteger (.unsigned 32)) text.toList =
        .ok (depths.map fun d : Nat => (d : Int)) ∧
      ∀ s : Stage kernel,
        (Admissible depths → s.setParameter "tree" text = .ok { s with settings := depths }) ∧
        (¬ Admissible depths → ∃ problem, Inadmissible depths problem ∧
          s.setParameter "tree" text =
            .error (.invalidParameter "SubbandEnergy" "tree" text problem) ∧
          s.change (.setParameter "tree" text) = s) := by
  have hrange : ∀ d ∈ depths, (d : Int) ≤ (IntegerRange.unsigned 32).greatest := fun d hd => by
    have hd := hbits d hd
    show (d : Int) ≤ 4294967295
    omega
  have hleast : (IntegerRange.unsigned 32).least ≤ 0 := by decide
  have hread := Parameter.readList_map_decimal Int.toNat hleast hrange htext
  simp only [Int.toNat_natCast, List.map_id'] at hread
  refine ⟨Parameter.readList_decimal hleast hrange htext, fun s => ⟨fun h => ?_, fun h => ?_⟩⟩
  · rw [Stage.setParameter, set_tree, readDepths_of_admissible hread h]
    rfl
  · obtain ⟨problem, hproblem⟩ := exists_inadmissible h
    have herror : s.setParameter "tree" text =
        .error (.invalidParameter "SubbandEnergy" "tree" text problem) := by
      rw [Stage.setParameter, set_tree, readDepths_of_inadmissible hread hproblem]
      rfl
    refine ⟨problem, hproblem, herror, ?_⟩
    rw [Stage.change, herror]
    rfl

/-- Three depths with a comma before them, an ideographic space among them and a line break after
them. -/
theorem setParameter_threeDepths :
    (∀ d ∈ [3, 24, 0], d < 2 ^ 32) ∧
      Text.Listed Parameter.isSeparator ([3, 24, 0].map decimal) ",3 ,24\u3000 0\n".toList ∧
      (Stage.new kernel).setParameter "tree" ",3 ,24\u3000 0\n" =
        .ok { Stage.new kernel with settings := [3, 24, 0] } := by
  have hbits : ∀ d ∈ [3, 24, 0], d < 2 ^ 32 := by decide
  have hjoined : Text.Joined Parameter.isSeparator ([3, 24, 0].map decimal)
      (['3'] ++ [' ', ','] ++ (['2', '4'] ++ ['\u3000', ' '] ++ ['0'])) :=
    .cons ['3'] (by decide) (by decide) (.cons ['2', '4'] (by decide) (by decide) (.single ['0']))
  have hbefore : Text.Gap Parameter.isSeparator [','] := by decide
  have hafter : Text.Gap Parameter.isSeparator ['\n'] := by decide
  have hlisted : Text.Listed Parameter.isSeparator ([3, 24, 0].map decimal)
      ",3 ,24\u3000 0\n".toList := .mk hbefore hjoined hafter
  have hadmissible : Admissible [3, 24, 0] := by decide
  exact ⟨hbits, hlisted, ((setParameter_of_listed hbits hlisted).2 _).1 hadmissible⟩

end Timbre.Subbands
