import Mathlib.Data.List.Basic
import Mathlib.Data.Set.Lattice
import Mathlib.Order.Defs.LinearOrder

/-!
# Age order of a levelled store

A levelled store keeps items on numbered levels; a read asks the levels in order and trusts the
first answer. That is sound when everything on an earlier level is newer than everything on a later
one. The top level is a list of separate sorted runs, newest first, so there the order is also asked
for inside the level.

Ages are an arbitrary function into sets of a linear order: an item made by merging others has
several ages, none of them foreign to the items it was made of.

Two operations keep the order: adding an item newer than all others at the top, and replacing a set
of items by outputs on one level, provided every item left over lies on the right side of that level
(`AgeOrdered.replace`).
-/

namespace AgeOrder

variable {α τ : Type*} [LinearOrder τ] (age : α → Set τ)

/-- Everything in `x` is newer than everything in `y`. -/
def Newer (x y : α) : Prop := ∀ s ∈ age x, ∀ t ∈ age y, t < s

/-- Every age of `x` is an age of one of the items in `ys`. -/
def MadeOf (x : α) (ys : List α) : Prop := ∀ s ∈ age x, ∃ y ∈ ys, s ∈ age y

variable {age}

theorem MadeOf.newer_of_forall {x z : α} {ys : List α} (hx : MadeOf age x ys)
    (hz : ∀ y ∈ ys, Newer age z y) : Newer age z x := by
  intro s hs t ht
  obtain ⟨y, hy, hty⟩ := hx t ht
  exact hz y hy s hs t hty

theorem MadeOf.of_forall_newer {x z : α} {ys : List α} (hx : MadeOf age x ys)
    (hz : ∀ y ∈ ys, Newer age y z) : Newer age x z := by
  intro s hs t ht
  obtain ⟨y, hy, hsy⟩ := hx s hs
  exact hz y hy s hsy t ht

variable (age)

/-- The store is in age order: the top level lists its runs newest first, and every level is newer
than the levels after it. -/
structure AgeOrdered (level : ℕ → List α) : Prop where
  /-- The runs of the top level, newest first. -/
  top : (level 0).Pairwise (Newer age)
  /-- Earlier levels are newer than later ones. -/
  below : ∀ {i j : ℕ}, i < j → ∀ x ∈ level i, ∀ y ∈ level j, Newer age x y

variable {age} {level level' : ℕ → List α}

/-- An empty store is in age order. -/
theorem AgeOrdered.of_forall_nil (h : ∀ i, level i = []) : AgeOrdered age level where
  top := by rw [h]; exact .nil
  below := by intro i j _ x hx; rw [h] at hx; exact absurd hx List.not_mem_nil

/-- Dropping items keeps the order. -/
theorem AgeOrdered.mono (h : AgeOrdered age level) (htop : (level' 0).Sublist (level 0))
    (hsub : ∀ i, level' i ⊆ level i) : AgeOrdered age level' where
  top := h.top.sublist htop
  below hij x hx y hy := h.below hij x (hsub _ hx) y (hsub _ hy)

/-- Adding an item newer than all others at the front of the top level keeps the order. -/
theorem AgeOrdered.push (h : AgeOrdered age level) {x : α}
    (hnew : ∀ i, ∀ y ∈ level i, Newer age x y) (htop : level' 0 = x :: level 0)
    (hrest : ∀ i, i ≠ 0 → level' i = level i) : AgeOrdered age level' where
  top := by
    rw [htop, List.pairwise_cons]
    exact ⟨fun y hy ↦ hnew 0 y hy, h.top⟩
  below := by
    intro i j hij z hz y hy
    rw [hrest j (by omega)] at hy
    rcases Nat.eq_zero_or_pos i with rfl | hi
    · rw [htop] at hz
      rcases List.mem_cons.mp hz with rfl | hz
      · exact hnew j y hy
      · exact h.below hij z hz y hy
    · rw [hrest i (by omega)] at hz
      exact h.below hij z hz y hy

/-- **Replacing items by outputs on one level.** The items left over keep their places; the outputs
are made of the items taken out and all land on level `out`, below the top. The order survives when
what is left above `out` is newer than every item taken out and what is left below it is older. -/
theorem AgeOrdered.replace (h : AgeOrdered age level) {inputs outputs : List α} {out : ℕ}
    (kept : ℕ → List α) (hout : 0 < out) (htop : (kept 0).Sublist (level 0))
    (hkept : ∀ i, kept i ⊆ level i)
    (habove : ∀ i, i < out → ∀ x ∈ kept i, ∀ y ∈ inputs, Newer age x y)
    (hbelow : ∀ i, out < i → ∀ x ∈ kept i, ∀ y ∈ inputs, Newer age y x)
    (hmade : ∀ o ∈ outputs, MadeOf age o inputs)
    (hlevel : ∀ i, level' i = if i = out then kept i ++ outputs else kept i) :
    AgeOrdered age level' where
  top := by
    rw [hlevel, if_neg hout.ne]
    exact h.top.sublist htop
  below := by
    intro i j hij x hx y hy
    -- Four cases: each of the two items is left over or an output.
    have hsplit : ∀ {k z}, z ∈ level' k → z ∈ kept k ∨ k = out ∧ z ∈ outputs := by
      intro k z hz
      rw [hlevel] at hz
      split_ifs at hz with hk
      · exact (List.mem_append.mp hz).imp id fun hz ↦ ⟨hk, hz⟩
      · exact Or.inl hz
    rcases hsplit hx with hx | ⟨rfl, hx⟩ <;> rcases hsplit hy with hy | ⟨rfl, hy⟩
    · exact h.below hij x (hkept _ hx) y (hkept _ hy)
    · exact (hmade y hy).newer_of_forall (habove i hij x hx)
    · exact (hmade x hx).of_forall_newer (hbelow j hij y hy)
    · exact absurd hij (lt_irrefl _)

end AgeOrder
