import Mathlib.Data.List.Sort
import Mathlib.Data.List.Count

/-!
Order statistics by counting.

The element at a rank of a sorted list is at least `a` exactly when enough
elements are (`le_getElem_iff_countP`), which does not depend on the order the
elements come in. `le_rank_iff` says it of the list before it is sorted, and
`median_le_median_slide` draws from it that the median of a sliding window does
not go back while no element below it comes in.
-/

namespace OrderStatistics

variable {α : Type} [LinearOrder α]

/-- The elements at or above a rank of a sorted list are those that are not
below its element. -/
theorem le_getElem_iff_countP {l : List α} (sorted : l.Pairwise (· ≤ ·)) {k : Nat}
    (lt : k < l.length) {a : α} : a ≤ l[k] ↔ l.length - k ≤ l.countP (a ≤ ·) := by
  have monotone := List.pairwise_iff_getElem.mp sorted
  constructor
  · intro le
    have all : (l.drop k).countP (a ≤ ·) = (l.drop k).length := by
      refine List.countP_eq_length.mpr fun b mem => decide_eq_true ?_
      obtain ⟨i, inside, rfl⟩ := List.getElem_of_mem mem
      rw [List.length_drop] at inside
      rw [List.getElem_drop]
      rcases Nat.eq_zero_or_pos i with rfl | above
      · exact le
      · exact le.trans (monotone k (k + i) lt (by omega) (by omega))
    calc l.length - k = (l.drop k).countP (a ≤ ·) := by rw [all, List.length_drop]
      _ ≤ l.countP (a ≤ ·) := (List.drop_sublist k l).countP_le
  · intro many
    by_contra below
    have none : (l.take (k + 1)).countP (a ≤ ·) = 0 := by
      refine List.countP_eq_zero.mpr fun b mem counted => ?_
      obtain ⟨i, inside, rfl⟩ := List.getElem_of_mem mem
      rw [List.length_take] at inside
      rw [List.getElem_take, decide_eq_true_eq] at counted
      rcases Nat.lt_or_ge i k with low | high
      · exact below (counted.trans (monotone i k (by omega) lt low))
      · obtain rfl : i = k := by omega
        exact below counted
    have rest : l.countP (a ≤ ·) ≤ l.length - (k + 1) := by
      calc l.countP (a ≤ ·) = (l.take (k + 1)).countP (a ≤ ·) + (l.drop (k + 1)).countP (a ≤ ·) := by
            rw [← List.countP_append, List.take_append_drop]
        _ ≤ 0 + (l.drop (k + 1)).length := by
            rw [none]
            exact Nat.add_le_add_left List.countP_le_length 0
        _ = l.length - (k + 1) := by rw [List.length_drop, Nat.zero_add]
    omega

/-- The element at a rank of a list, once sorted, by counting in the list as it is. -/
theorem le_rank_iff {l : List α} {k : Nat} (lt : k < l.length) {a d : α} :
    a ≤ (l.insertionSort (· ≤ ·)).getD k d ↔ l.length - k ≤ l.countP (a ≤ ·) := by
  have perm := l.perm_insertionSort (· ≤ ·)
  have inside : k < (l.insertionSort (· ≤ ·)).length := by rwa [List.length_insertionSort]
  rw [List.getD_eq_getElem?_getD, List.getElem?_eq_getElem inside, Option.getD_some,
    le_getElem_iff_countP (List.pairwise_insertionSort _ l) inside, List.length_insertionSort,
    perm.countP_eq]

/-- The upper median: of two middle elements the greater. -/
def median (default : α) (l : List α) : α :=
  (l.insertionSort (· ≤ ·)).getD (l.length / 2) default

@[simp] theorem median_singleton (a d : α) : median d [a] = a := by
  simp [median]

theorem le_median_iff {l : List α} (nonempty : l ≠ []) {a d : α} :
    a ≤ median d l ↔ l.length - l.length / 2 ≤ l.countP (a ≤ ·) := by
  have positive := List.length_pos_of_ne_nil nonempty
  exact le_rank_iff (by omega)

/-- A window of odd span that is filling up or full takes in an element that is
not below its median, and loses its last one when it is full: the median does
not go back. -/
theorem median_le_median_slide {window : List α} {j : Nat} {new d : α} (nonempty : window ≠ [])
    (short : window.length ≤ 2 * j + 1) (above : median d window ≤ new) :
    median d window ≤ median d (new :: window.take (2 * j)) := by
  have many := (le_median_iff (d := d) nonempty).mp le_rfl
  have lost : window.countP (median d window ≤ ·) ≤
      (window.take (2 * j)).countP (median d window ≤ ·) + (window.length - 2 * j) := by
    calc window.countP (median d window ≤ ·) =
          (window.take (2 * j)).countP (median d window ≤ ·) +
            (window.drop (2 * j)).countP (median d window ≤ ·) := by
          rw [← List.countP_append, List.take_append_drop]
      _ ≤ _ := by
          rw [← List.length_drop]
          exact Nat.add_le_add_left List.countP_le_length _
  have gained : (new :: window.take (2 * j)).countP (median d window ≤ ·) =
      (window.take (2 * j)).countP (median d window ≤ ·) + 1 :=
    List.countP_cons_of_pos (decide_eq_true above)
  refine (le_median_iff (List.cons_ne_nil _ _)).mpr ?_
  rw [gained, List.length_cons, List.length_take]
  omega

end OrderStatistics
