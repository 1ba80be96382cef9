import Mathlib.Data.Int.Log
import Mathlib.Data.List.DropRight
import Mathlib.Data.Rat.Floor
import WorkloadAwareCompaction.Library.Numeral

/-!
# Writing floating-point numbers to a character stream

A formatted write of a `double` in the style of C++. A finite `double` is a rational number, and what
is written is a correctly rounded decimal: in the general format, the default, its six most
significant digits, without the zeros at the end of a fraction, and with an exponent if the number is
large or small; in the fixed format, its first six decimals.

Whole numbers of at most six digits look like integers in the general format (`general_intCast`).
-/

namespace CharStream

/-- The nearest natural number, and of two the even one. -/
def roundHalfEven (q : ℚ) : ℕ :=
  let rest := q - ⌊q⌋₊
  if rest < 1 / 2 then ⌊q⌋₊
  else if 1 / 2 < rest then ⌊q⌋₊ + 1
  else ⌊q⌋₊ + ⌊q⌋₊ % 2

theorem roundHalfEven_natCast (n : ℕ) : roundHalfEven n = n := by
  simp [roundHalfEven]

/-- The most significant digits of a positive number, that many, and its exponent. Rounding may carry
into one more digit. -/
def significant (precision : ℕ) (q : ℚ) : ℕ × ℤ :=
  let exponent := Int.log 10 q
  let digits := roundHalfEven (q * 10 ^ (precision - 1 - exponent : ℤ))
  if digits < 10 ^ precision then (digits, exponent) else (10 ^ (precision - 1), exponent + 1)

/-- The first of these digits, with all others as decimals. -/
def decimals (places digits : ℕ) : List Char :=
  (Nat.toDigits 10 (digits % 10 ^ places)).leftpad places '0'

/-- A number with decimals, without the zeros at their end, and without the point if none is left. -/
def pointed (places digits : ℕ) : List Char :=
  let fraction := (decimals places digits).rdropWhile (· = '0')
  Nat.toDigits 10 (digits / 10 ^ places) ++ if fraction = [] then [] else '.' :: fraction

/-- An exponent, with at least two digits. -/
def exponentPart (exponent : ℤ) : List Char :=
  ['e', if exponent < 0 then '-' else '+'] ++ (Nat.toDigits 10 exponent.natAbs).leftpad 2 '0'

/-- The default format. -/
def general (q : ℚ) : List Char :=
  let text :=
    if q = 0 then ['0']
    else
      let (digits, exponent) := significant 6 |q|
      -- The exponent after rounding decides.
      if -4 ≤ exponent ∧ exponent < 6 then pointed (5 - exponent).toNat digits
      else pointed 5 digits ++ exponentPart exponent
  (if q < 0 then ['-'] else []) ++ text

/-- `std::fixed`. -/
def fixed (q : ℚ) : List Char :=
  let digits := roundHalfEven (|q| * 10 ^ 6)
  (if q < 0 then ['-'] else []) ++ Nat.toDigits 10 (digits / 10 ^ 6) ++ '.' :: decimals 6 digits

/-! ## What is written -/

/-- The characters of a number in either format. -/
def isDecimal (c : Char) : Bool := isNumeric c || c = '.' || c = 'e' || c = '+'

theorem isDecimal_of_mem_toDigits {n : ℕ} {c : Char} (h : c ∈ Nat.toDigits 10 n) :
    isDecimal c = true := by
  have hdigit : c.isDigit = true := Nat.isDigit_of_mem_toDigits (by decide) le_rfl h
  simp [isDecimal, isNumeric, hdigit]

theorem isDecimal_of_mem_leftpad {places n : ℕ} {c : Char}
    (h : c ∈ (Nat.toDigits 10 n).leftpad places '0') : isDecimal c = true := by
  rcases List.mem_append.mp h with h | h
  · rw [List.eq_of_mem_replicate h]
    rfl
  · exact isDecimal_of_mem_toDigits h

theorem isDecimal_of_mem_pointed {places digits : ℕ} {c : Char} (h : c ∈ pointed places digits) :
    isDecimal c = true := by
  rcases List.mem_append.mp h with h | h
  · exact isDecimal_of_mem_toDigits h
  · split_ifs at h
    · exact absurd h List.not_mem_nil
    · rcases List.mem_cons.mp h with rfl | h
      · rfl
      · exact isDecimal_of_mem_leftpad ((List.rdropWhile_prefix _ _).subset h)

theorem isDecimal_of_mem_general {q : ℚ} {c : Char} (h : c ∈ general q) : isDecimal c = true := by
  rcases List.mem_append.mp h with h | h
  · split_ifs at h
    · rw [List.mem_singleton.mp h]
      rfl
    · exact absurd h List.not_mem_nil
  · dsimp only at h
    split_ifs at h
    · rw [List.mem_singleton.mp h]
      rfl
    · exact isDecimal_of_mem_pointed h
    · rcases List.mem_append.mp h with h | h
      · exact isDecimal_of_mem_pointed h
      · rcases List.mem_append.mp h with h | h
        · simp only [List.mem_cons, List.not_mem_nil, or_false] at h
          rcases h with rfl | rfl
          · rfl
          · split_ifs <;> rfl
        · exact isDecimal_of_mem_leftpad h

theorem pointed_ne_nil (places digits : ℕ) : pointed places digits ≠ [] :=
  List.append_ne_nil_of_left_ne_nil Nat.toDigits_ne_nil _

theorem general_ne_nil (q : ℚ) : general q ≠ [] := by
  refine List.append_ne_nil_of_right_ne_nil _ ?_
  dsimp only
  split_ifs
  · exact List.cons_ne_nil _ _
  · exact pointed_ne_nil _ _
  · exact List.append_ne_nil_of_left_ne_nil (pointed_ne_nil _ _) _

/-! ## Whole numbers -/

/-- The decimals of a whole number are zeros, and dropped. -/
theorem pointed_mul_pow (n places : ℕ) : pointed places (n * 10 ^ places) = Nat.toDigits 10 n := by
  have hzeros : decimals places (n * 10 ^ places) = List.replicate (max places 1) '0' := by
    rw [decimals, Nat.mul_mod_left]
    show List.replicate (places - 1) '0' ++ List.replicate 1 '0' = _
    rw [← List.replicate_add]
    congr 1
    omega
  have hfraction : (decimals places (n * 10 ^ places)).rdropWhile (· = '0') = [] := by
    rw [hzeros, List.rdropWhile_eq_nil_iff]
    intro c hc
    simpa using List.eq_of_mem_replicate hc
  rw [pointed, hfraction, Nat.mul_div_cancel _ (by positivity)]
  simp

/-- A whole number has its digits, and zeros behind them. -/
theorem significant_natCast {n : ℕ} (hn : n ≠ 0) (hlt : n < 10 ^ 6) :
    significant 6 n = (n * 10 ^ (5 - Nat.log 10 n), (Nat.log 10 n : ℤ)) := by
  have hlog : Nat.log 10 n ≤ 5 := Nat.le_of_lt_succ (Nat.log_lt_of_lt_pow hn hlt)
  have hscaled : (n : ℚ) * 10 ^ ((6 : ℕ) - 1 - Nat.log 10 n : ℤ)
      = ((n * 10 ^ (5 - Nat.log 10 n) : ℕ) : ℚ) := by
    rw [show ((6 : ℕ) - 1 - Nat.log 10 n : ℤ) = ((5 - Nat.log 10 n : ℕ) : ℤ) by omega, zpow_natCast]
    push_cast
    rfl
  have hdigits : n * 10 ^ (5 - Nat.log 10 n) < 10 ^ 6 :=
    calc n * 10 ^ (5 - Nat.log 10 n)
        < 10 ^ (Nat.log 10 n + 1) * 10 ^ (5 - Nat.log 10 n) :=
          Nat.mul_lt_mul_of_pos_right (Nat.lt_pow_succ_log_self (by decide) n) (by positivity)
      _ = 10 ^ 6 := by rw [← pow_add, show Nat.log 10 n + 1 + (5 - Nat.log 10 n) = 6 by omega]
  rw [significant, Int.log_natCast, hscaled, roundHalfEven_natCast, if_pos hdigits]

/-- **Whole numbers of at most six digits are written like integers.** -/
theorem general_intCast {n : ℤ} (h : n.natAbs < 10 ^ 6) : general n = numeral n := by
  have hneg : ((n : ℚ) < 0) ↔ n < 0 := Int.cast_lt_zero
  rw [general, numeral]
  by_cases hn : n = 0
  · subst hn
    rfl
  · have hnat : n.natAbs ≠ 0 := Int.natAbs_ne_zero.mpr hn
    have hlog : Nat.log 10 n.natAbs ≤ 5 := Nat.le_of_lt_succ (Nat.log_lt_of_lt_pow hnat h)
    have hzero : ¬(n : ℚ) = 0 := Int.cast_ne_zero.mpr hn
    have habs : |(n : ℚ)| = (n.natAbs : ℚ) := by
      rw [Nat.cast_natAbs, Int.cast_abs]
    -- There are as many decimals as zeros behind the digits of the number.
    have hfixed : (-4 : ℤ) ≤ Nat.log 10 n.natAbs ∧ (Nat.log 10 n.natAbs : ℤ) < 6 := by omega
    have hplaces : ((5 : ℤ) - Nat.log 10 n.natAbs).toNat = 5 - Nat.log 10 n.natAbs := by omega
    simp only [hneg, if_neg hzero, habs, significant_natCast hnat h, if_pos hfixed, hplaces,
      pointed_mul_pow]

/-! ## Large numbers -/

theorem log_le_significant (precision : ℕ) (q : ℚ) :
    Int.log 10 q ≤ (significant precision q).2 := by
  rw [significant]
  split_ifs
  · exact le_rfl
  · exact Int.le_of_lt (Int.lt_succ _)

theorem length_exponentPart (exponent : ℤ) : 4 ≤ (exponentPart exponent).length := by
  rw [exponentPart, List.length_append, List.length_leftpad]
  show 2 + 2 ≤ 2 + _
  exact Nat.add_le_add_left (le_max_left _ _) 2

/-- A number with more than six digits before its point is written with an exponent. -/
theorem four_le_length_general {q : ℚ} (h : 10 ^ 6 ≤ |q|) : 4 ≤ (general q).length := by
  have hpos : 0 < |q| := lt_of_lt_of_le (by norm_num) h
  have hlog : 6 ≤ Int.log 10 |q| :=
    (Int.zpow_le_iff_le_log (by decide) hpos).mp (by exact_mod_cast h)
  have hexponent : ¬(-4 ≤ (significant 6 |q|).2 ∧ (significant 6 |q|).2 < 6) := by
    have := log_le_significant 6 |q|
    omega
  rw [general]
  dsimp only
  rw [if_neg (abs_pos.mp hpos), if_neg hexponent, List.length_append, List.length_append]
  have := length_exponentPart (significant 6 |q|).2
  omega

/-- The whole numbers that fit into a column with four places. -/
theorem length_general_intCast_lt_iff {n : ℤ} :
    (general n).length < 4 ↔ -100 < n ∧ n < 1000 := by
  by_cases h : n.natAbs < 10 ^ 6
  · rw [general_intCast h]
    exact length_numeral_lt_iff (by decide : 0 < 2)
  · have hlarge : (10 : ℚ) ^ 6 ≤ |(n : ℚ)| := by
      rw [← Int.cast_abs, ← Nat.cast_natAbs]
      exact_mod_cast not_lt.mp h
    refine iff_of_false (not_lt.mpr (four_le_length_general hlarge)) ?_
    omega

example : general 4 = ['4'] ∧ general (1 / 2) = ['0', '.', '5']
    ∧ general (-2147483648) = "-2.14748e+09".toList ∧ general (1 / 3) = "0.333333".toList
    ∧ general (9999994 / 10) = "999999".toList ∧ general (9999995 / 10) = "1e+06".toList
    ∧ fixed (-1 / 3) = "-0.333333".toList := by
  decide +kernel

end CharStream
