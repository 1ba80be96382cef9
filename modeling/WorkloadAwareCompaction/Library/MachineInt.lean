import Mathlib.Data.Int.ModEq
import Mathlib.Data.Rat.Floor

/-!
# Integers of a fixed width

The integer types of a C-like language: a type is given by its signedness and its width, and a value
of it is an integer in its range. A conversion between two types keeps a value modulo the width of
the target. It keeps the value itself exactly when the value is in the range of the target
(`CInt.val_convert_eq_iff`), whatever the two types are.

Arithmetic comes in two kinds. In an unsigned type the exact result is reduced (`CInt.ofInt`); in a
signed type a result out of range is undefined (`CInt.checked`).
-/

namespace MachineInt

/-- An integer type. -/
structure IntType where
  signed : Bool
  width : ℕ

namespace IntType

/-! ## The types of a platform with 64-bit `long` and `size_t` -/

def int : IntType := ⟨true, 32⟩
def unsignedInt : IntType := ⟨false, 32⟩
def long : IntType := ⟨true, 64⟩
def sizeT : IntType := ⟨false, 64⟩
def uint16 : IntType := ⟨false, 16⟩
def uint32 : IntType := ⟨false, 32⟩
def uint64 : IntType := ⟨false, 64⟩

/-! ## Ranges -/

/-- The least value. -/
def least (t : IntType) : ℤ := if t.signed then -2 ^ (t.width - 1) else 0

def InRange (t : IntType) (n : ℤ) : Prop := t.least ≤ n ∧ n < t.least + 2 ^ t.width

instance (t : IntType) : DecidablePred t.InRange := fun _ ↦ inferInstanceAs (Decidable (_ ∧ _))

theorem least_unsigned {t : IntType} (h : t.signed = false) : t.least = 0 := by
  rw [least, h]
  rfl

theorem inRange_unsigned {t : IntType} (h : t.signed = false) {n : ℤ} :
    t.InRange n ↔ 0 ≤ n ∧ n < 2 ^ t.width := by
  rw [InRange, least_unsigned h, zero_add]

theorem inRange_long_natCast {n : ℕ} (h : n < 2 ^ 63) : long.InRange n := by
  have hlt : (n : ℤ) < 2 ^ 63 := by exact_mod_cast h
  exact ⟨le_trans (by decide) (Int.natCast_nonneg n), hlt.trans_le (by decide)⟩

/-- The value of the type that is congruent to `n`. -/
def wrap (t : IntType) (n : ℤ) : ℤ := t.least + (n - t.least) % 2 ^ t.width

theorem inRange_wrap (t : IntType) (n : ℤ) : t.InRange (t.wrap n) := by
  have hpos : (0 : ℤ) < 2 ^ t.width := by positivity
  have hnonneg := Int.emod_nonneg (n - t.least) hpos.ne'
  have hlt := Int.emod_lt_of_pos (n - t.least) hpos
  exact ⟨by rw [wrap]; omega, by rw [wrap]; omega⟩

theorem wrap_of_inRange {t : IntType} {n : ℤ} (h : t.InRange n) : t.wrap n = n := by
  obtain ⟨hleast, hlt⟩ := h
  rw [wrap, Int.emod_eq_of_lt (by omega) (by omega)]
  omega

theorem wrap_eq_iff {t : IntType} {n : ℤ} : t.wrap n = n ↔ t.InRange n :=
  ⟨fun h ↦ h ▸ t.inRange_wrap n, wrap_of_inRange⟩

theorem wrap_modEq (t : IntType) (n : ℤ) : t.wrap n ≡ n [ZMOD 2 ^ t.width] := by
  have h := (Int.mod_modEq (n - t.least) (2 ^ t.width)).add_left t.least
  rwa [add_sub_cancel] at h

theorem wrap_congr {t : IntType} {n m : ℤ} (h : n ≡ m [ZMOD 2 ^ t.width]) :
    t.wrap n = t.wrap m := by
  rw [wrap, wrap, h.sub_right]

/-- Reducing before an addition does not show. -/
theorem wrap_wrap_add (t : IntType) (n m : ℤ) : t.wrap (t.wrap n + m) = t.wrap (n + m) :=
  wrap_congr ((t.wrap_modEq n).add_right m)

/-- Nothing is reduced to something larger. -/
theorem wrap_le_self {t : IntType} {n : ℤ} (h : t.least ≤ n) : t.wrap n ≤ n := by
  have hpow : (0 : ℤ) ≤ 2 ^ t.width := by positivity
  have hquot := mul_nonneg hpow (Int.ediv_nonneg (sub_nonneg.mpr h) hpow)
  have hsplit := Int.mul_ediv_add_emod (n - t.least) (2 ^ t.width)
  rw [wrap]
  omega

theorem wrap_unsigned {t : IntType} (h : t.signed = false) (n : ℤ) :
    t.wrap n = n % 2 ^ t.width := by
  rw [wrap, least_unsigned h, sub_zero, zero_add]

/-- A conversion through a type that is not narrower changes nothing. -/
theorem wrap_wrap {t t' : IntType} (h : t.width ≤ t'.width) (n : ℤ) :
    t.wrap (t'.wrap n) = t.wrap n :=
  wrap_congr ((t'.wrap_modEq n).of_dvd (pow_dvd_pow 2 h))

/-- Every value of the first type is one of the second. -/
def Widens (t t' : IntType) : Prop :=
  t'.least ≤ t.least ∧ t.least + 2 ^ t.width ≤ t'.least + 2 ^ t'.width

instance (t t' : IntType) : Decidable (t.Widens t') := inferInstanceAs (Decidable (_ ∧ _))

theorem InRange.widen {t t' : IntType} {n : ℤ} (hn : t.InRange n) (h : t.Widens t') :
    t'.InRange n :=
  ⟨h.1.trans hn.1, hn.2.trans_le h.2⟩

end IntType

/-! ## Values -/

/-- A value of an integer type. -/
@[ext]
structure CInt (t : IntType) where
  val : ℤ
  inRange : t.InRange val

namespace CInt

variable {t : IntType}

instance : DecidableEq (CInt t) := fun x y ↦
  decidable_of_iff (x.val = y.val) CInt.ext_iff.symm

/-- An integer as a value of the type: a conversion, or the result of unsigned arithmetic. -/
def ofInt (t : IntType) (n : ℤ) : CInt t := ⟨t.wrap n, t.inRange_wrap n⟩

instance (n : ℕ) : OfNat (CInt t) n := ⟨ofInt t n⟩

/-- The conversion to another type. -/
def convert (t' : IntType) (x : CInt t) : CInt t' := ofInt t' x.val

/-- **A conversion keeps the value exactly when the target has it.** -/
theorem val_convert_eq_iff {t' : IntType} {x : CInt t} :
    (x.convert t').val = x.val ↔ t'.InRange x.val :=
  IntType.wrap_eq_iff

theorem val_convert_of_widens {t' : IntType} (h : t.Widens t') (x : CInt t) :
    (x.convert t').val = x.val :=
  val_convert_eq_iff.mpr (x.inRange.widen h)

/-- A conversion through a type that is not narrower changes nothing. -/
theorem convert_convert {t' t'' : IntType} (h : t''.width ≤ t'.width) (x : CInt t) :
    (x.convert t').convert t'' = x.convert t'' :=
  CInt.ext (IntType.wrap_wrap h x.val)

/-- An unsigned type that is wide enough has the values that are not negative. -/
theorem inRange_iff_nonneg {t' : IntType} (ht' : t'.signed = false)
    (h : t.least + 2 ^ t.width ≤ 2 ^ t'.width) {x : CInt t} : t'.InRange x.val ↔ 0 ≤ x.val := by
  rw [IntType.inRange_unsigned ht']
  exact and_iff_left (x.inRange.2.trans_le h)

/-- Unsigned multiplication. -/
def wrappingMul (x y : CInt t) : CInt t := ofInt t (x.val * y.val)

/-- Reducing between two multiplications does not show in the end. -/
theorem val_wrappingMul_wrappingMul (x y z : CInt t) :
    ((x.wrappingMul y).wrappingMul z).val = t.wrap (x.val * y.val * z.val) :=
  IntType.wrap_congr ((t.wrap_modEq (x.val * y.val)).mul_right z.val)

/-- Unsigned addition. -/
def wrappingAdd (x y : CInt t) : CInt t := ofInt t (x.val + y.val)

/-- Signed arithmetic with the exact result `n`: undefined when it overflows. -/
def checked (t : IntType) (n : ℤ) : Option (CInt t) :=
  if h : t.InRange n then some ⟨n, h⟩ else none

theorem checked_of_inRange {n : ℤ} (h : t.InRange n) : checked t n = some ⟨n, h⟩ := dif_pos h

theorem checked_eq_some_iff {n : ℤ} {x : CInt t} : checked t n = some x ↔ x.val = n := by
  rw [checked]
  split_ifs with h
  · rw [Option.some_inj, CInt.ext_iff]
    exact eq_comm
  · refine ⟨False.elim, ?_⟩
    rintro rfl
    exact absurd x.inRange h

/-- The conversion of a floating-point value, which is truncated: undefined out of range. -/
def ofRat (t : IntType) (q : ℚ) : Option (CInt t) := checked t (q.num.tdiv q.den)

end CInt

/-! ## Truncation -/

/-- Truncation is the floor of what is not negative. -/
theorem tdiv_eq_floor {q : ℚ} (hq : 0 ≤ q) : q.num.tdiv q.den = ⌊q⌋ := by
  rw [Int.tdiv_eq_ediv_of_nonneg (Rat.num_nonneg.mpr hq), ← Rat.floor_def']

theorem tdiv_nonpos {q : ℚ} (hq : q < 1) : q.num.tdiv q.den ≤ 0 := by
  rcases le_or_gt 0 q with hnonneg | hneg
  · rw [tdiv_eq_floor hnonneg, ← Int.lt_add_one_iff]
    exact Int.floor_lt.mpr (by exact_mod_cast hq)
  · have hnum := neg_nonneg.mpr (Rat.num_nonpos.mpr hneg.le)
    have htdiv := Int.tdiv_nonneg hnum (Int.natCast_nonneg q.den)
    rw [Int.neg_tdiv] at htdiv
    omega

end MachineInt
