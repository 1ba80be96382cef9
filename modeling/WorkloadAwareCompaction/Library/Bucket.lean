import Mathlib.Data.List.Range
import Mathlib.Data.List.Flatten
import Mathlib.Data.List.Sort

/-!
# Distributing a keyed list over buckets

A loop that pushes each item of a list onto the bucket its key names leaves in every bucket the
items of that key, in their old order. If the list was sorted by key to begin with, reading the
buckets one after the other gives the list back, so nothing is lost, nothing is duplicated, and
nothing is reordered.
-/

namespace Bucket

variable {α β : Type*}

/-- Pushes every item of `xs` onto the bucket its key names. -/
def distribute (key : α → ℕ) (push : α → β → β) (xs : List α) (buckets : List β) : List β :=
  xs.foldl (fun buckets x ↦ buckets.modify (key x) (push x)) buckets

variable (key : α → ℕ) (push : α → β → β)

@[simp] theorem distribute_nil (buckets : List β) : distribute key push [] buckets = buckets := rfl

@[simp] theorem distribute_cons (x : α) (xs : List α) (buckets : List β) :
    distribute key push (x :: xs) buckets
      = distribute key push xs (buckets.modify (key x) (push x)) := rfl

theorem distribute_append (xs ys : List α) (buckets : List β) :
    distribute key push (xs ++ ys) buckets
      = distribute key push ys (distribute key push xs buckets) := by
  rw [distribute, List.foldl_append, distribute, distribute]

@[simp] theorem length_distribute (xs : List α) (buckets : List β) :
    (distribute key push xs buckets).length = buckets.length := by
  induction xs generalizing buckets with
  | nil => rfl
  | cons x xs ih => rw [distribute_cons, ih, List.length_modify]

/-- A bucket receives exactly the items of its own key, in their old order. -/
theorem getElem?_distribute (xs : List α) (buckets : List β) (i : ℕ) :
    (distribute key push xs buckets)[i]?
      = buckets[i]?.map fun b ↦ (xs.filter (key · = i)).foldl (fun b x ↦ push x b) b := by
  induction xs generalizing buckets with
  | nil => simp
  | cons x xs ih =>
    rw [distribute_cons, ih]
    by_cases hx : key x = i
    · subst hx
      rw [List.getElem?_modify_eq, List.filter_cons_of_pos (by simp)]
      cases buckets[key x]? <;> rfl
    · rw [List.getElem?_modify_ne _ _ hx, List.filter_cons_of_neg (by simpa using hx)]

/-- When keys only grow and stay at most `n`, the items of key `n` are the tail of the list. -/
theorem filter_lt_append_filter_eq {key : α → ℕ} {xs : List α} {n : ℕ}
    (hsorted : xs.Pairwise fun x y ↦ key x ≤ key y) (hle : ∀ x ∈ xs, key x ≤ n) :
    xs.filter (key · < n) ++ xs.filter (key · = n) = xs := by
  induction xs with
  | nil => rfl
  | cons x xs ih =>
    obtain ⟨hx, hxs⟩ := List.pairwise_cons.mp hsorted
    have htail := ih hxs fun y hy ↦ hle y (List.mem_cons_of_mem _ hy)
    rcases (hle x List.mem_cons_self).lt_or_eq with hlow | htop
    · rw [List.filter_cons_of_pos (by simpa using hlow),
        List.filter_cons_of_neg (by simpa using hlow.ne), List.cons_append, htail]
    · -- From the first item of key `n` on, all keys are `n`.
      have hall : ∀ y ∈ x :: xs, key y = n := by
        intro y hy
        rcases List.mem_cons.mp hy with rfl | hy
        · exact htop
        · exact le_antisymm (hle y (List.mem_cons_of_mem _ hy)) (htop ▸ hx y hy)
      rw [List.filter_eq_nil_iff.mpr fun y hy ↦ by simp [hall y hy], List.nil_append,
        List.filter_eq_self.mpr fun y hy ↦ by simp [hall y hy]]

/-- **Reading the buckets back.** A list sorted by key is the concatenation of its buckets. -/
theorem flatMap_filter_key {key : α → ℕ} {xs : List α} {n : ℕ}
    (hsorted : xs.Pairwise fun x y ↦ key x ≤ key y) (hlt : ∀ x ∈ xs, key x < n) :
    ((List.range n).flatMap fun i ↦ xs.filter (key · = i)) = xs := by
  induction n generalizing xs with
  | zero =>
    rw [List.eq_nil_iff_forall_not_mem.mpr fun x hx ↦ Nat.not_lt_zero _ (hlt x hx)]
    rfl
  | succ n ih =>
    -- All buckets but the last, read from the items below `n`.
    have hlow : (List.range n).flatMap (fun i ↦ xs.filter (key · = i))
        = xs.filter (key · < n) := by
      have hbelow : ∀ x ∈ xs.filter (key · < n), key x < n := by simp
      rw [← ih (hsorted.filter _) hbelow]
      refine List.flatMap_congr fun i hi ↦ ?_
      rw [List.filter_filter]
      refine List.filter_congr fun x _ ↦ ?_
      have := List.mem_range.mp hi
      by_cases hx : key x = i <;> simp [hx]
      omega
    rw [List.range_succ, List.flatMap_append, hlow, List.flatMap_singleton,
      filter_lt_append_filter_eq hsorted fun x hx ↦ Nat.le_of_lt_succ (hlt x hx)]

end Bucket
