import Mathlib.Data.List.Sort
import Mathlib.Data.List.TakeWhile

/-!
# Scanning a sorted list

A scan walks along a list up to the first element that fails a test. If the test can only get lost
along the list, the scan has passed exactly the elements that meet it (`takeWhile_eq_filter`). The
other lemma is about where sorted lists come from.
-/

namespace SortedList

variable {α : Type*}

/-- What a scan passes, when the test can only get lost along the list. -/
theorem takeWhile_eq_filter {r : α → α → Prop} {p : α → Bool} (hp : ∀ a b, r a b → p b → p a)
    {l : List α} (hl : l.Pairwise r) : l.takeWhile p = l.filter p := by
  induction hl with
  | nil => rfl
  | @cons a l ha _ ih =>
    by_cases h : p a
    · rw [List.takeWhile_cons_of_pos h, List.filter_cons_of_pos h, ih]
    · have hnone : ∀ b ∈ l, ¬p b := fun b hb hpb ↦ h (hp a b (ha b hb) hpb)
      rw [List.takeWhile_cons_of_neg h, List.filter_cons_of_neg h,
        List.filter_eq_nil_iff.mpr hnone]

/-- Sorting a list without repetitions makes it strictly increasing. -/
theorem pairwise_mergeSort {le : α → α → Bool} (htrans : ∀ a b c, le a b → le b c → le a c)
    (htotal : ∀ a b, le a b || le b a) {l : List α} (hl : l.Nodup) :
    (l.mergeSort le).Pairwise fun a b ↦ le a b ∧ a ≠ b :=
  (List.pairwise_mergeSort htrans htotal l).and ((List.mergeSort_perm l le).nodup_iff.mpr hl)

end SortedList
