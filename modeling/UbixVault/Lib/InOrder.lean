/-
The elements of a finite set in order.

`Finset.sort` merges by a well-founded recursion and does not reduce.  Insertion is
structural, so a listing that is made with it can be evaluated, and the list is the same.
-/
import Mathlib.Data.Finmap
import Mathlib.Data.Finset.Sort
import Mathlib.Data.List.Sort

variable {α : Type} [LinearOrder α]

theorem List.Perm.insertionSort_eq {l l' : List α} (h : l.Perm l') :
    l.insertionSort (· ≤ ·) = l'.insertionSort (· ≤ ·) :=
  (((l.perm_insertionSort _).trans h).trans (l'.perm_insertionSort _).symm).eq_of_pairwise
    (fun _ _ _ _ => le_antisymm) (l.pairwise_insertionSort _) (l'.pairwise_insertionSort _)

namespace Finset

def inOrder (s : Finset α) : List α :=
  Quot.liftOn s.val (·.insertionSort (· ≤ ·)) fun _ _ => List.Perm.insertionSort_eq

theorem inOrder_eq_sort (s : Finset α) : s.inOrder = s.sort := by
  obtain ⟨⟨l⟩, hnodup⟩ := s
  refine List.Perm.eq_of_pairwise (fun _ _ _ _ => le_antisymm) (l.pairwise_insertionSort _)
    (Finset.pairwise_sort _ _) ?_
  exact (l.perm_insertionSort _).trans (List.mergeSort_perm _ _).symm

@[simp] theorem mem_inOrder {s : Finset α} {a : α} : a ∈ s.inOrder ↔ a ∈ s := by
  rw [inOrder_eq_sort, mem_sort]

theorem nodup_inOrder (s : Finset α) : s.inOrder.Nodup := by
  rw [inOrder_eq_sort]
  exact sort_nodup s _

theorem pairwise_inOrder (s : Finset α) : s.inOrder.Pairwise (· < ·) := by
  rw [inOrder_eq_sort]
  exact (sortedLT_sort s).pairwise

end Finset

theorem Finmap.mem_inOrder_of_lookup [DecidableEq α] {β : Type} {m : Finmap fun _ : α => β} {a : α} {b : β}
    (h : m.lookup a = some b) : a ∈ m.keys.inOrder :=
  Finset.mem_inOrder.mpr (mem_keys.mpr (mem_iff.mpr ⟨b, h⟩))
