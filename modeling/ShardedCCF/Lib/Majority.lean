import Mathlib

/-! Majorities: two of them meet, and the middle of a sorted list is reached by
a majority of it. -/
namespace Lib
open List

def majority (n : Nat) : Nat := n / 2 + 1

theorem length_sub_le_countP {l : List Nat} (sorted : l.Pairwise (· ≤ ·))
    (found : l[k]? = some v) : l.length - k ≤ l.countP (v ≤ ·) := by
  have inside : k < l.length := (List.getElem?_eq_some_iff.mp found).1
  have above : (l.drop k).countP (v ≤ ·) = (l.drop k).length := by
    rw [countP_eq_length]
    intro w member
    rw [drop_eq_getElem_cons inside] at member
    have first : l[k] = v := (List.getElem?_eq_some_iff.mp found).2
    have ordered := sorted.drop (i := k)
    rw [drop_eq_getElem_cons inside, pairwise_cons] at ordered
    rcases mem_cons.mp member with rfl | later
    · simp [first]
    · simpa [first] using ordered.1 w later
  calc l.length - k = (l.drop k).countP (v ≤ ·) := by rw [above, length_drop]
    _ ≤ l.countP (v ≤ ·) := (drop_sublist k l).countP_le

theorem countP_le_length_sub {l : List Nat} (sorted : l.Pairwise (· ≤ ·))
    (found : l[k]? = some v) (above : v < w) : l.countP (w ≤ ·) ≤ l.length - (k + 1) := by
  obtain ⟨inside, rfl⟩ := List.getElem?_eq_some_iff.mp found
  have low : (l.take (k + 1)).countP (w ≤ ·) = 0 := by
    rw [countP_eq_zero]
    intro u member
    obtain ⟨j, bound, rfl⟩ := mem_take_iff_getElem.mp member
    have le : l[j] ≤ l[k] := by
      rcases Nat.lt_or_eq_of_le (show j ≤ k by omega) with before | rfl
      · exact pairwise_iff_getElem.mp sorted j k _ inside before
      · exact le_rfl
    simp only [decide_eq_true_eq]
    omega
  calc l.countP (w ≤ ·)
      = (l.take (k + 1)).countP (w ≤ ·) + (l.drop (k + 1)).countP (w ≤ ·) := by
        rw [← countP_append, take_append_drop]
    _ ≤ l.length - (k + 1) := by
        rw [low, Nat.zero_add, ← length_drop]
        exact countP_le_length

theorem middle_lt {l : List Nat} (found : (l.insertionSort (· ≤ ·))[(l.length - 1) / 2]? = some v) :
    (l.length - 1) / 2 < l.length := by
  have inside := (List.getElem?_eq_some_iff.mp found).1
  rwa [length_insertionSort] at inside

/-- The entry at `(n - 1) / 2` of the sorted list is reached by a majority. -/
theorem majority_le_countP {l : List Nat}
    (found : (l.insertionSort (· ≤ ·))[(l.length - 1) / 2]? = some v) :
    majority l.length ≤ l.countP (v ≤ ·) := by
  have counted := length_sub_le_countP (pairwise_insertionSort ..) found
  have inside := middle_lt found
  rw [(perm_insertionSort _ l).countP_eq, length_insertionSort] at counted
  unfold majority
  omega

/-- Nothing above the entry at `(n - 1) / 2` is reached by a majority. -/
theorem countP_lt_majority {l : List Nat}
    (found : (l.insertionSort (· ≤ ·))[(l.length - 1) / 2]? = some v) (above : v < w) :
    l.countP (w ≤ ·) < majority l.length := by
  have counted := countP_le_length_sub (pairwise_insertionSort ..) found above
  have inside := middle_lt found
  rw [(perm_insertionSort _ l).countP_eq, length_insertionSort] at counted
  unfold majority
  omega

end Lib
