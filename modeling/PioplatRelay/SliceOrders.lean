import PioplatRelay.BinaryHeap
import Mathlib.Data.List.Sort

/-!
# Sorting and shuffling slices

`sort.Slice` puts a slice in some order in which no element is less than one
before it; elements that are neither less than the other come in any order.
`rand.Shuffle` exchanges every position, from the last down, with a drawn
position that is not behind it.
-/

namespace PioplatRelay

open List BinaryHeap Nat

variable {α : Type*}

/-- The comparisons that `sort.Slice` expects. -/
structure StrictWeak (less : α → α → Bool) : Prop where
  asymm : ∀ x y, less x y = true → less y x = false
  between : ∀ x y z, less x z = true → less x y = true ∨ less y z = true

structure SliceSort (α : Type*) where
  sort : (α → α → Bool) → List α → List α
  perm : ∀ less items, (sort less items).Perm items
  ordered : ∀ less items, StrictWeak less →
    (sort less items).Pairwise fun x y => less y x = false

/-- Merge sort, which keeps the order of equal elements. -/
def SliceSort.merge : SliceSort α where
  sort less items := items.mergeSort fun x y => !less y x
  perm less items := mergeSort_perm items _
  ordered less items weak := by
    have transitive (x y z : α) (first : (!less y x) = true) (second : (!less z y) = true) :
        (!less z x) = true := by
      rw [Bool.not_eq_true'] at first second ⊢
      by_contra greater
      rcases weak.between z y x (Bool.eq_true_of_not_eq_false greater) with below | above
      · rw [second] at below
        cases below
      · rw [first] at above
        cases above
    have total (x y : α) : (!less y x || !less x y) = true := by
      cases greater : less y x
      · rfl
      · rw [weak.asymm y x greater]
        rfl
    have sorted := pairwise_mergeSort transitive total items
    exact sorted.imp fun notLess => by simpa using notLess

/-- The rounds of `rand.Shuffle` from a position down. -/
def shuffleFrom (draws : Nat → Nat) : Nat → List α → List α
  | 0, items => items
  | i + 1, items => shuffleFrom draws i (BinaryHeap.swap items (i + 1) (draws (i + 1) % (i + 2)))

def shuffle (draws : Nat → Nat) (items : List α) : List α :=
  shuffleFrom draws (items.length - 1) items

theorem shuffleFrom_perm (draws : Nat → Nat) (i : Nat) (items : List α) :
    (shuffleFrom draws i items).Perm items := by
  induction i generalizing items with
  | zero => rfl
  | succ i ih => exact (ih _).trans (swap_perm items _ _)

theorem shuffle_perm (draws : Nat → Nat) (items : List α) : (shuffle draws items).Perm items :=
  shuffleFrom_perm draws _ items

end PioplatRelay
