import Mathlib.Data.List.Sort
import Mathlib.Data.Set.Card
import Timbre.Proofs.Kernel.Guarded

/-! # Local maxima and the strongest of them

A local maximum lies above its left neighbour and not below its right one, so no two are adjacent.
Sorting them by their values is stable: of two equal ones the lower comes first. So the front of the
sorted maxima holds the strongest, and sorting that by position leaves the same positions. All this
rests on an order in which any two values of the array compare. Main statement: `selects_strongest`.
-/
namespace Timbre.Tempo

section Sorting

variable {a b : Nat} {l : List Nat}

theorem not_sublist_swap (h : l.Nodup) (hab : [a, b].Sublist l) : ¬[b, a].Sublist l := by
  induction l with
  | nil => cases hab
  | cons x xs ih =>
    obtain ⟨hx, hxs⟩ := List.nodup_cons.1 h
    intro hba
    cases hab with
    | cons _ hab =>
      cases hba with
      | cons _ hba => exact ih hxs hab hba
      | cons_cons _ _ => exact hx (hab.subset (by simp))
    | cons_cons _ hb =>
      cases hba with
      | cons _ hba => exact hx (hba.subset (by simp))
      | cons_cons _ _ => exact hx (hb.subset (by simp))

theorem sublist_of_increasing (hl : l.Pairwise (· < ·)) (hb : b ∈ l) (ha : a ∈ l) (hlt : b < a) :
    [b, a].Sublist l := by
  have hpair : [b, a].Pairwise (· < ·) := List.pairwise_pair.2 hlt
  have hsubset : [b, a] ⊆ l := by simp [ha, hb]
  exact List.sublist_of_subperm_of_pairwise (List.subperm_of_subset hpair.nodup hsubset) hpair hl

/-- A stable sort leaves positions that compare both ways in increasing order. -/
theorem pairwise_mergeSort_stable {le : Nat → Nat → Bool}
    (htrans : ∀ a b c, le a b → le b c → le a c) (htotal : ∀ a b, le a b || le b a)
    (hl : l.Pairwise (· < ·)) :
    (l.mergeSort le).Pairwise fun a b => le a b ∧ (le b a → a < b) := by
  have hnodup : (l.mergeSort le).Nodup := (List.mergeSort_perm l le).nodup_iff.2 hl.nodup
  rw [List.pairwise_iff_forall_sublist]
  intro a b hab
  have hle := List.pairwise_iff_forall_sublist.1 (List.pairwise_mergeSort htrans htotal l) hab
  refine ⟨hle, fun hback => ?_⟩
  have hne : a ≠ b := List.pairwise_iff_forall_sublist.1 hnodup hab
  have ha : a ∈ l := List.mem_mergeSort.1 (hab.subset (by simp))
  have hb : b ∈ l := List.mem_mergeSort.1 (hab.subset (by simp))
  by_contra hnot
  have hbefore : [b, a].Sublist l := sublist_of_increasing hl hb ha (by omega)
  exact not_sublist_swap hnodup hab (List.pair_sublist_mergeSort htrans htotal hback hbefore)

end Sorting

section Maxima

variable {α : Type} [Zero α] [LT α] [LE α] {values : Array α} {count i j : Nat}

def heightAt (values : Array α) (i : Nat) : α := values[i]?.getD 0

/-- An interior position above its left neighbour and not below its right one. -/
structure IsMaximum (values : Array α) (i : Nat) : Prop where
  pos : 0 < i
  lt_size : i + 1 < values.size
  left : heightAt values (i - 1) < heightAt values i
  right : heightAt values (i + 1) ≤ heightAt values i

/-- One position outranks another by its value or, of equal values, by being lower. -/
def Outranks (values : Array α) (i j : Nat) : Prop :=
  heightAt values j ≤ heightAt values i ∧ (heightAt values i ≤ heightAt values j → i < j)

/-- The `count` strongest maxima, or all of them where there are fewer, in increasing order. -/
structure Selects (values : Array α) (count : Nat) (positions : List Nat) : Prop where
  increasing : positions.Pairwise (· < ·)
  maximum : ∀ i ∈ positions, IsMaximum values i
  length_eq : positions.length = min count {i | IsMaximum values i}.ncard
  outranks : ∀ i ∈ positions, ∀ j, IsMaximum values j → j ∉ positions → Outranks values i j

omit [LT α] [LE α] in
theorem getElem?_eq_some_heightAt (hi : i < values.size) :
    values[i]? = some (heightAt values i) := by
  simp [heightAt, hi]

section Positions

variable [DecidableLT α] [DecidableLE α]

theorem isPeak_iff : isPeak values i = true ↔ IsMaximum values i := by
  constructor
  · intro h
    have hpos := pos_of_isPeak h
    have hsize := lt_size_of_isPeak h
    rw [isPeak, getElem?_eq_some_heightAt (by omega), getElem?_eq_some_heightAt (by omega),
      getElem?_eq_some_heightAt hsize] at h
    simp only [Bool.and_eq_true, decide_eq_true_eq] at h
    exact ⟨hpos, hsize, h.1.2, h.2⟩
  · rintro ⟨hpos, hsize, hleft, hright⟩
    rw [isPeak, getElem?_eq_some_heightAt (by omega), getElem?_eq_some_heightAt (by omega),
      getElem?_eq_some_heightAt hsize]
    simp only [Bool.and_eq_true, decide_eq_true_eq]
    exact ⟨⟨hpos, hleft⟩, hright⟩

theorem mem_localMaxima : i ∈ localMaxima values ↔ IsMaximum values i := by
  rw [localMaxima, List.mem_filter, isPeak_iff, List.mem_range]
  exact ⟨fun h => h.2, fun h => ⟨Nat.lt_of_succ_lt h.lt_size, h⟩⟩

omit [Zero α] in
theorem increasing_localMaxima (values : Array α) : (localMaxima values).Pairwise (· < ·) :=
  List.pairwise_lt_range.filter _

theorem ncard_maxima (values : Array α) :
    {i | IsMaximum values i}.ncard = (localMaxima values).length := by
  have hset : {i | IsMaximum values i} = ((localMaxima values).toFinset : Set Nat) := by
    ext i
    simp [mem_localMaxima]
  rw [hset, Set.ncard_coe_finset, List.toFinset_card_of_nodup (increasing_localMaxima values).nodup]

/-- The maxima from the greatest down. -/
def ranked (values : Array α) : List Nat :=
  (localMaxima values).mergeSort fun a b => heightAt values b ≤ heightAt values a

theorem mem_ranked : i ∈ ranked values ↔ IsMaximum values i := by
  rw [ranked, List.mem_mergeSort, mem_localMaxima]

theorem strongest_eq (values : Array α) (count : Nat) :
    strongest values count = ((ranked values).take count).mergeSort (· ≤ ·) := rfl

theorem mem_strongest : i ∈ strongest values count ↔ i ∈ (ranked values).take count := by
  rw [strongest_eq, List.mem_mergeSort]

theorem increasing_strongest (values : Array α) (count : Nat) :
    (strongest values count).Pairwise (· < ·) := by
  have hle := List.pairwise_mergeSort' (· ≤ ·) ((ranked values).take count)
  have hnodup : (ranked values).Nodup :=
    (List.mergeSort_perm _ _).nodup_iff.2 (increasing_localMaxima values).nodup
  have hne : (((ranked values).take count).mergeSort (· ≤ ·)).Nodup :=
    (List.mergeSort_perm _ _).nodup_iff.2 (hnodup.sublist (List.take_sublist count _))
  exact (hle.and hne).imp fun hab => Nat.lt_of_le_of_ne hab.1 hab.2

end Positions

/-- The values compare as the keys of their positions do. -/
structure Ordered {K : Type} [LinearOrder K] (values : Array α) (key : Nat → K) : Prop where
  lt_iff : ∀ i j, heightAt values i < heightAt values j ↔ key i < key j
  le_iff : ∀ i j, heightAt values i ≤ heightAt values j ↔ key i ≤ key j

namespace Ordered

variable {K : Type} [LinearOrder K] {key : Nat → K} (h : Ordered values key)
include h

theorem not_adjacent (hi : IsMaximum values i) : ¬IsMaximum values (i + 1) := fun hnext =>
  not_lt.2 ((h.le_iff _ _).1 hi.right) ((h.lt_iff _ _).1 hnext.left)

/-- Between two maxima there is another position. -/
theorem add_two_le (hi : IsMaximum values i) (hj : IsMaximum values j) (hlt : i < j) :
    i + 2 ≤ j := by
  have hne : i + 1 ≠ j := fun heq => h.not_adjacent hi (heq ▸ hj)
  omega

variable [DecidableLT α] [DecidableLE α]

theorem outranks_ranked : (ranked values).Pairwise (Outranks values) := by
  have htrans (a b c : Nat) (hab : decide (heightAt values b ≤ heightAt values a) = true)
      (hbc : decide (heightAt values c ≤ heightAt values b) = true) :
      decide (heightAt values c ≤ heightAt values a) = true := by
    simp only [decide_eq_true_eq, h.le_iff] at hab hbc ⊢
    exact hbc.trans hab
  have htotal (a b : Nat) : (decide (heightAt values b ≤ heightAt values a) ||
      decide (heightAt values a ≤ heightAt values b)) = true := by
    simp only [Bool.or_eq_true, decide_eq_true_eq, h.le_iff]
    exact le_total _ _
  refine (pairwise_mergeSort_stable htrans htotal (increasing_localMaxima values)).imp ?_
  rintro a b ⟨hle, htie⟩
  exact ⟨of_decide_eq_true hle, fun hback => htie (decide_eq_true hback)⟩

theorem selects_strongest (count : Nat) : Selects values count (strongest values count) := by
  have hranked := h.outranks_ranked
  rw [← List.take_append_drop count (ranked values), List.pairwise_append] at hranked
  constructor
  · exact increasing_strongest values count
  · intro i hi
    exact mem_ranked.1 (List.mem_of_mem_take (mem_strongest.1 hi))
  · rw [strongest_eq, List.length_mergeSort, List.length_take, ranked, List.length_mergeSort,
      ncard_maxima]
  · intro i hi j hj hnot
    have hmem : j ∈ ranked values := mem_ranked.2 hj
    rw [← List.take_append_drop count (ranked values), List.mem_append] at hmem
    have hrest := hmem.resolve_left fun htake => hnot (mem_strongest.2 htake)
    exact hranked.2.2 i (mem_strongest.1 hi) j hrest

end Ordered

end Maxima

end Timbre.Tempo
