import Mathlib.Data.List.TakeWhile
import Timbre.Text.Blank

/-! # Words and the gaps between them

Words are told apart by gaps of separators, of any length and any mixture, and gaps may also stand
before the first word and after the last. A text that is cut at every separator falls into pieces,
many of them empty: one between any two separators of a gap, and one at each end that has a gap. The
pieces that are not empty are the words, in their order: `Listed.fields_eq`.
-/
namespace Timbre.Text

variable {separator : Char → Bool} {gap word text : List Char} {words : List (List Char)}

theorem pieces_eq_splitOnP (separator : Char → Bool) (text : List Char) :
    pieces separator text = text.splitOnP separator := by
  induction text with
  | nil => rfl
  | cons c text ih => rw [pieces, List.splitOnP_cons_eq_if_modifyHead, ih]

def Gap (separator : Char → Bool) (gap : List Char) : Prop := ∀ c ∈ gap, separator c = true

instance (separator : Char → Bool) (gap : List Char) : Decidable (Gap separator gap) :=
  decidable_of_iff (gap.all separator = true) List.all_eq_true

structure Word (separator : Char → Bool) (word : List Char) : Prop where
  ne_nil : word ≠ []
  not_separator : ∀ c ∈ word, separator c = false

/-- The words in their order, with a gap between any two of them. -/
inductive Joined (separator : Char → Bool) : List (List Char) → List Char → Prop
  | nil : Joined separator [] []
  | single (word : List Char) : Joined separator [word] word
  | cons (word : List Char) {gap next text : List Char} {words : List (List Char)}
    (hgap : Gap separator gap) (hne : gap ≠ []) (h : Joined separator (next :: words) text) :
    Joined separator (word :: next :: words) (word ++ gap ++ text)

/-- Joined words, perhaps with gaps at both ends. -/
inductive Listed (separator : Char → Bool) (words : List (List Char)) : List Char → Prop
  | mk {before text after : List Char} (hbefore : Gap separator before)
    (h : Joined separator words text) (hafter : Gap separator after) :
    Listed separator words (before ++ text ++ after)

theorem fields_gap_append (hgap : Gap separator gap) (text : List Char) :
    fields separator (gap ++ text) = fields separator text := by
  induction gap with
  | nil => rfl
  | cons c gap ih =>
    obtain ⟨hc, hgap⟩ := List.forall_mem_cons.1 hgap
    rw [List.cons_append, fields, pieces, if_pos hc, List.filter_cons_of_neg (by simp)]
    exact ih hgap

theorem fields_gap (hgap : Gap separator gap) : fields separator gap = [] := by
  rw [← List.append_nil gap, fields_gap_append hgap]
  rfl

theorem fields_word (hword : Word separator word) : fields separator word = [word] := by
  rw [fields, pieces_eq_splitOnP, List.splitOnP_eq_singleton hword.not_separator]
  simp [hword.ne_nil]

/-- A word ends where a gap begins. -/
theorem fields_word_append (hword : Word separator word) (hgap : Gap separator gap)
    (hne : gap ≠ []) (text : List Char) :
    fields separator (word ++ (gap ++ text)) = word :: fields separator text := by
  obtain ⟨c, rest, rfl⟩ := List.exists_cons_of_ne_nil hne
  obtain ⟨hc, hrest⟩ := List.forall_mem_cons.1 hgap
  rw [fields, List.cons_append, pieces_eq_splitOnP,
    List.splitOnP_append_cons_of_forall_mem hword.not_separator c hc,
    List.filter_cons_of_pos (by simp [hword.ne_nil]), ← pieces_eq_splitOnP]
  exact congrArg (word :: ·) (fields_gap_append hrest text)

theorem Joined.fields_append (h : Joined separator words text)
    (hwords : ∀ word ∈ words, Word separator word) (hgap : Gap separator gap) :
    fields separator (text ++ gap) = words := by
  induction h with
  | nil => exact fields_gap hgap
  | single word =>
    have hword : Word separator word := hwords word (List.mem_singleton_self word)
    by_cases hne : gap = []
    · rw [hne, List.append_nil, fields_word hword]
    · rw [← List.append_nil gap, fields_word_append hword hgap hne]
      rfl
  | cons word hbetween hne _ ih =>
    obtain ⟨hword, hrest⟩ := List.forall_mem_cons.1 hwords
    rw [List.append_assoc, List.append_assoc, fields_word_append hword hbetween hne, ih hrest]

theorem Listed.fields_eq (h : Listed separator words text)
    (hwords : ∀ word ∈ words, Word separator word) : fields separator text = words := by
  obtain ⟨hbefore, hjoined, hafter⟩ := h
  rw [List.append_assoc, fields_gap_append hbefore, hjoined.fields_append hwords hafter]

theorem trim_of_not_blank (h : ∀ c ∈ text, isBlank c = false) : trim text = text := by
  have hnone (cs : List Char) (hcs : ∀ c ∈ cs, isBlank c = false) : cs.dropWhile isBlank = cs :=
    List.dropWhile_eq_self_iff.2 fun hl => by simp [hcs _ (List.getElem_mem hl)]
  rw [trim, hnone text h, hnone _ fun c hc => h c (List.mem_reverse.1 hc), List.reverse_reverse]

end Timbre.Text
