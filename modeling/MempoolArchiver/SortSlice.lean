import Mathlib.Data.List.Sort
import Mathlib.Data.List.FinRange

/-!
# `sort.Slice`

`sort.Slice(x, less)` sorts with the standard library's pattern-defeating quicksort. What
`mergeTransactions` relies on is what any such sort is: it reads the slice only through
`less(i, j)` and changes it only by swapping two positions, so the permutation it applies is
decided by the slice's length and the answers of `less` alone; and when `less` compares an
integer key, the result is ordered by that key. It is not stable, and the order of elements
with equal keys is whatever that permutation makes of the order they came in.

`SortSlice` states these two facts and nothing more. `insertionSortSlice` is one instance:
the stable insertion sort that `sort.Slice` runs on slices of at most twelve elements.
-/

namespace MempoolArchiver

structure SortSlice where
  /-- The original positions of the sorted elements, chosen from the length and `less`. -/
  order : (n : Nat) → (Fin n → Fin n → Bool) → List (Fin n)
  order_perm : ∀ n less, (order n less).Perm (List.finRange n)
  order_sorted : ∀ n (key : Fin n → Int),
    (order n fun i j => decide (key i < key j)).Sorted fun i j => key i ≤ key j

namespace SortSlice

def sort (S : SortSlice) {α : Type} (less : α → α → Bool) (xs : List α) : List α :=
  (S.order xs.length fun i j => less (xs.get i) (xs.get j)).map xs.get

variable (S : SortSlice) {α : Type}

theorem sort_perm (less : α → α → Bool) (xs : List α) : (S.sort less xs).Perm xs := by
  conv_rhs => rw [← List.finRange_map_get xs]
  exact (S.order_perm _ _).map _

theorem sort_sorted (key : α → Int) (xs : List α) :
    (S.sort (fun a b => decide (key a < key b)) xs).Sorted fun a b => key a ≤ key b := by
  unfold sort
  exact List.pairwise_map.mpr (S.order_sorted xs.length fun i => key (xs.get i))

/-- When `less` answers `false` to every question about `xs`, the permutation the sort
applies depends on the length of `xs` alone. -/
theorem sort_of_unordered (less : α → α → Bool) (xs : List α)
    (h : ∀ x ∈ xs, ∀ y ∈ xs, less x y = false) :
    S.sort less xs = (S.order xs.length fun _ _ => false).map xs.get := by
  unfold sort
  congr
  funext i j
  exact h _ (List.get_mem xs i.1 i.2) _ (List.get_mem xs j.1 j.2)

end SortSlice

theorem perm_finRange_two {o : List (Fin 2)} (h : o.Perm (List.finRange 2)) :
    o = [0, 1] ∨ o = [1, 0] := by
  match o, h.length_eq with
  | [x, y], _ => revert x y h; decide

/-- The stable insertion sort on positions: a position moves left past every position whose
element it is `less` than. -/
def insertionSortSlice : SortSlice where
  order n less := (List.finRange n).insertionSort fun i j => !less j i
  order_perm n less := List.perm_insertionSort _ _
  order_sorted n key := by
    have htotal : IsTotal (Fin n) fun i j => (!decide (key j < key i)) = true :=
      ⟨fun i j => by simp only [Bool.not_eq_true', decide_eq_false_iff_not, not_lt]; omega⟩
    have htrans : IsTrans (Fin n) fun i j => (!decide (key j < key i)) = true :=
      ⟨fun i j k => by simp only [Bool.not_eq_true', decide_eq_false_iff_not, not_lt]; omega⟩
    exact (List.sorted_insertionSort _ _).imp fun h => by simpa using h

end MempoolArchiver
