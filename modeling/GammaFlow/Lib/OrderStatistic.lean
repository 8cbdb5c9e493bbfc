import Mathlib.Data.List.Sort
import Mathlib.Order.Basic

/-!
# Order statistics

The element at position `k` of a list sorted in descending order is at least `x`
exactly when more than `k` elements of the list are. This turns "look at one
element of the sorted list" into "count", in both directions.
-/

namespace GammaFlow

variable {α : Type} [LinearOrder α]

theorem le_of_sorted {s : List α} (hs : s.Pairwise (· ≥ ·)) {i k : ℕ} (hik : i ≤ k)
    (hk : k < s.length) : s[k] ≤ s[i] := by
  rcases hik.lt_or_eq with hlt | rfl
  · exact List.pairwise_iff_getElem.mp hs i k (by omega) hk hlt
  · exact le_rfl

theorem le_getElem_iff_of_sorted {s : List α} (hs : s.Pairwise (· ≥ ·)) {x : α} {k : ℕ}
    (hk : k < s.length) : x ≤ s[k] ↔ k < s.countP (x ≤ ·) := by
  constructor
  · -- the first `k + 1` elements are all counted
    intro hx
    have hall : ∀ a ∈ s.take (k + 1), decide (x ≤ a) = true := by
      intro a ha
      obtain ⟨i, hi, rfl⟩ := List.mem_take_iff_getElem.mp ha
      simpa using hx.trans (le_of_sorted hs (by omega) hk)
    have hcount := List.countP_eq_length.mpr hall
    rw [List.length_take] at hcount
    have hle := (List.take_sublist (k + 1) s).countP_le (p := fun a => decide (x ≤ a))
    omega
  · -- from position `k` on nothing is counted
    intro hcount
    by_contra hx
    have hnone : ∀ a ∈ s.drop k, ¬ decide (x ≤ a) = true := by
      intro a ha
      obtain ⟨i, hi, rfl⟩ := List.mem_drop_iff_getElem.mp ha
      have := le_of_sorted hs (Nat.le_add_right k i) (by omega)
      simpa using lt_of_le_of_lt this (not_le.mp hx)
    have hsplit : (s.take k ++ s.drop k).countP (fun a => decide (x ≤ a))
        = (s.take k).countP (fun a => decide (x ≤ a)) + (s.drop k).countP fun a => decide (x ≤ a) :=
      List.countP_append
    rw [List.take_append_drop, List.countP_eq_zero.mpr hnone] at hsplit
    have hle := List.countP_le_length (p := fun a => decide (x ≤ a)) (l := s.take k)
    rw [List.length_take] at hle
    omega

/-- **Reading one element of the sorted list is counting.** -/
theorem le_getElem_insertionSort_iff (l : List α) {x : α} {k : ℕ}
    (hk : k < (l.insertionSort (· ≥ ·)).length) :
    x ≤ (l.insertionSort (· ≥ ·))[k] ↔ k < l.countP (x ≤ ·) := by
  rw [le_getElem_iff_of_sorted (List.pairwise_insertionSort _ l) hk,
    (List.perm_insertionSort (· ≥ ·) l).countP_eq]

end GammaFlow
