import Mathlib.Data.Int.Log
import Mathlib.Data.Rat.Floor

/-!
# Rounding to binary64

An operation on numbers of the format binary64 rounds its exact result to the nearest number of the
format, and of two that are equally near to the one with an even significand. Around a number the
format is a grid of integer multiples of a power of two, its *spacing*: 52 binary places below the
leading one of the number, and no less than `2 ^ (-1074)`. So a rounding is a rounding to an integer
between two scalings.

Rounding does not change the order of two numbers (`round_mono`). On one grid this is the order of
the integers. Between two grids there is a power of two, which lies on both. An integer of at most 53
bits lies on its own grid and is not changed (`round_intCast`).

The exponent has no upper bound here: what the format cannot hold because it is too large is not
replaced by an infinity.
-/

namespace Binary64

/-! ## Rounding to an integer -/

/-- The nearest integer, and of two the even one. -/
def roundHalfEven (x : ℚ) : ℤ :=
  if Int.fract x < 1 / 2 ∨ Int.fract x = 1 / 2 ∧ Even ⌊x⌋ then ⌊x⌋ else ⌊x⌋ + 1

theorem floor_le_roundHalfEven (x : ℚ) : ⌊x⌋ ≤ roundHalfEven x := by
  rw [roundHalfEven]
  split_ifs <;> omega

theorem roundHalfEven_le_floor_add_one (x : ℚ) : roundHalfEven x ≤ ⌊x⌋ + 1 := by
  rw [roundHalfEven]
  split_ifs <;> omega

@[simp] theorem roundHalfEven_intCast (n : ℤ) : roundHalfEven n = n := by
  rw [roundHalfEven, Int.fract_intCast, if_pos (Or.inl (by norm_num)), Int.floor_intCast]

theorem roundHalfEven_mono {x y : ℚ} (hxy : x ≤ y) : roundHalfEven x ≤ roundHalfEven y := by
  rcases (Int.floor_mono hxy).lt_or_eq with hlt | heq
  · calc roundHalfEven x ≤ ⌊x⌋ + 1 := roundHalfEven_le_floor_add_one x
      _ ≤ ⌊y⌋ := hlt
      _ ≤ roundHalfEven y := floor_le_roundHalfEven y
  · have hfract : Int.fract x ≤ Int.fract y := by
      rw [Int.fract, Int.fract, heq]
      exact sub_le_sub_right hxy _
    by_cases hy : Int.fract y < 1 / 2 ∨ Int.fract y = 1 / 2 ∧ Even ⌊y⌋
    · -- What is rounded down above is rounded down below.
      have hx : Int.fract x < 1 / 2 ∨ Int.fract x = 1 / 2 ∧ Even ⌊x⌋ := by
        rcases hy with hy | ⟨hy, heven⟩
        · exact Or.inl (hfract.trans_lt hy)
        · exact (hfract.trans_eq hy).lt_or_eq.imp_right fun h ↦ ⟨h, heq ▸ heven⟩
      rw [roundHalfEven, roundHalfEven, if_pos hx, if_pos hy, heq]
    · rw [roundHalfEven, roundHalfEven, if_neg hy, ← heq]
      split_ifs <;> omega

/-! ## The grid -/

/-- The exponent of the last binary place. -/
def lastPlace (x : ℚ) : ℤ := max (Int.log 2 |x| - 52) (-1074)

/-- The distance of two neighbours in the format. -/
def spacing (x : ℚ) : ℚ := 2 ^ lastPlace x

def round (x : ℚ) : ℚ := roundHalfEven (x / spacing x) * spacing x

theorem spacing_pos (x : ℚ) : 0 < spacing x := zpow_pos two_pos _

/-- What lies on the grid is not changed. -/
theorem round_of_eq_mul {x : ℚ} {m : ℤ} (h : x = m * spacing x) : round x = x := by
  rw [round, (div_eq_iff (spacing_pos x).ne').mpr h, roundHalfEven_intCast, ← h]

theorem round_le_of_le {x : ℚ} {m : ℤ} (h : x ≤ m * spacing x) : round x ≤ m * spacing x := by
  have hround := roundHalfEven_mono ((div_le_iff₀ (spacing_pos x)).mpr h)
  rw [roundHalfEven_intCast] at hround
  exact mul_le_mul_of_nonneg_right (by exact_mod_cast hround) (spacing_pos x).le

theorem le_round_of_le {x : ℚ} {m : ℤ} (h : m * spacing x ≤ x) : m * spacing x ≤ round x := by
  have hround := roundHalfEven_mono ((le_div_iff₀ (spacing_pos x)).mpr h)
  rw [roundHalfEven_intCast] at hround
  exact mul_le_mul_of_nonneg_right (by exact_mod_cast hround) (spacing_pos x).le

/-- A power of two that is no smaller than the spacing lies on the grid. -/
theorem zpow_eq_mul_spacing {x : ℚ} {n : ℤ} (h : lastPlace x ≤ n) :
    (2 : ℚ) ^ n = ((2 ^ (n - lastPlace x).toNat : ℤ) : ℚ) * spacing x := by
  have hexp : n = ((n - lastPlace x).toNat : ℤ) + lastPlace x := by omega
  conv_lhs => rw [hexp, zpow_add₀ two_ne_zero, zpow_natCast]
  rw [spacing]
  push_cast
  rfl

/-- So do its multiples. -/
theorem round_of_eq_mul_zpow {x : ℚ} {m n : ℤ} (h : lastPlace x ≤ n) (hx : x = m * 2 ^ n) :
    round x = x := by
  refine round_of_eq_mul (m := m * 2 ^ (n - lastPlace x).toNat) ?_
  rw [Int.cast_mul, mul_assoc, ← zpow_eq_mul_spacing h, ← hx]

theorem lastPlace_mono {x y : ℚ} (hx : 0 < x) (h : x ≤ y) : lastPlace x ≤ lastPlace y := by
  have hlog := Int.log_mono_right (b := 2) hx h
  rw [lastPlace, lastPlace, abs_of_pos hx, abs_of_pos (hx.trans_le h)]
  omega

/-! ## The laws of rounding -/

@[simp] theorem round_zero : round 0 = 0 :=
  round_of_eq_mul (m := 0) (by rw [Int.cast_zero, zero_mul])

/-- **Rounding keeps the order.** -/
theorem round_mono {x y : ℚ} (hx : 0 ≤ x) (h : x ≤ y) : round x ≤ round y := by
  rcases hx.eq_or_lt with rfl | hpos
  · rw [round_zero]
    simpa using le_round_of_le (x := y) (m := 0) (by simpa using h)
  rcases (lastPlace_mono hpos h).eq_or_lt with heq | hlt
  · have hspacing : spacing x = spacing y := by rw [spacing, spacing, heq]
    have hdiv : x / spacing y ≤ y / spacing y := div_le_div_of_nonneg_right h (spacing_pos y).le
    rw [round, round, hspacing]
    exact mul_le_mul_of_nonneg_right (by exact_mod_cast roundHalfEven_mono hdiv) (spacing_pos y).le
  · -- The leading place of `y` is above that of `x`, and its power of two lies on both grids.
    have hy : lastPlace y = Int.log 2 y - 52 := by
      rw [lastPlace, lastPlace, abs_of_pos (hpos.trans_le h)] at *
      omega
    have hlog : Int.log 2 x + 1 ≤ Int.log 2 y := by
      have hx : Int.log 2 x - 52 ≤ lastPlace x := by
        rw [lastPlace, abs_of_pos hpos]
        exact le_max_left _ _
      omega
    have hbelow : x ≤ 2 ^ Int.log 2 y :=
      calc x ≤ (2 : ℚ) ^ (Int.log 2 x + 1) := (Int.lt_zpow_succ_log_self one_lt_two x).le
        _ ≤ 2 ^ Int.log 2 y := zpow_le_zpow_right₀ one_le_two hlog
    have habove : (2 : ℚ) ^ Int.log 2 y ≤ y := Int.zpow_log_le_self one_lt_two (hpos.trans_le h)
    have hx := zpow_eq_mul_spacing (x := x) (n := Int.log 2 y) (by omega)
    have hy := zpow_eq_mul_spacing (x := y) (n := Int.log 2 y) (by omega)
    calc round x ≤ 2 ^ Int.log 2 y := hx ▸ round_le_of_le (hx ▸ hbelow)
      _ ≤ round y := hy ▸ le_round_of_le (hy ▸ habove)

theorem round_nonneg {x : ℚ} (h : 0 ≤ x) : 0 ≤ round x := by
  simpa using le_round_of_le (x := x) (m := 0) (by simpa using h)

theorem round_nonpos {x : ℚ} (h : x ≤ 0) : round x ≤ 0 := by
  simpa using round_le_of_le (x := x) (m := 0) (by simpa using h)

/-- **An integer of at most 53 bits is not changed.** -/
theorem round_intCast {n : ℤ} (h : |n| ≤ 2 ^ 53) : round n = n := by
  have hlog : Int.log 2 |(n : ℚ)| = Nat.log 2 n.natAbs := by
    rw [← Int.cast_abs, Int.abs_eq_natAbs, Int.cast_natCast, Int.log_natCast]
  rcases lt_or_eq_of_le h with hlt | heq
  · -- The units are no finer than the last binary place.
    have hlt : n.natAbs < 2 ^ 53 := by
      rw [Int.abs_eq_natAbs] at hlt
      exact_mod_cast hlt
    refine round_of_eq_mul_zpow (m := n) (n := 0) ?_ (by rw [zpow_zero, mul_one])
    have := Nat.log_lt_of_lt_pow' (b := 2) (by decide) hlt
    rw [lastPlace, hlog]
    omega
  · have hlast : lastPlace n ≤ 53 := by
      have : n.natAbs = 2 ^ 53 := by
        rw [Int.abs_eq_natAbs] at heq
        exact_mod_cast heq
      rw [lastPlace, hlog, this, Nat.log_pow one_lt_two]
      omega
    rcases eq_or_eq_neg_of_abs_eq heq with rfl | rfl
    · exact round_of_eq_mul_zpow (m := 1) hlast (by norm_num)
    · exact round_of_eq_mul_zpow (m := -1) hlast (by norm_num)

theorem round_natCast {n : ℕ} (h : n ≤ 2 ^ 53) : round n = n := by
  have habs : |(n : ℤ)| ≤ 2 ^ 53 := by
    rw [abs_of_nonneg (Int.natCast_nonneg n)]
    exact_mod_cast h
  exact_mod_cast round_intCast habs

@[simp] theorem round_one : round 1 = 1 := by
  exact_mod_cast round_natCast (n := 1) (by norm_num)

theorem one_le_round {x : ℚ} (h : 1 ≤ x) : 1 ≤ round x := by
  simpa using round_mono zero_le_one h

theorem round_natCast_mono {n m : ℕ} (h : n ≤ m) : round n ≤ round m :=
  round_mono n.cast_nonneg (by exact_mod_cast h)

theorem round_natCast_nonneg (n : ℕ) : 0 ≤ round n := round_nonneg n.cast_nonneg

theorem round_natCast_ne_zero {n : ℕ} (h : n ≠ 0) : round n ≠ 0 := by
  have hone : (1 : ℚ) ≤ n := by exact_mod_cast Nat.one_le_iff_ne_zero.mpr h
  exact (one_pos.trans_le (one_le_round hone)).ne'

end Binary64
