import Mathlib.Data.List.Basic
import WorkloadAwareCompaction.Library.CharStream
import WorkloadAwareCompaction.Library.MachineInt

/-!
# Reading decimal numbers from a character stream

A formatted read of an integer in the style of C++, base 10: white space is skipped, then a sign may
follow, then as many digits as there are. Three things can go wrong, and each of them sets `failbit`.
When only white space is left, nothing is assigned. When no digit follows, 0 is assigned, and a sign
is gone from the stream. When the number is out of the range of the type, the nearest value is
assigned, and all digits are gone.

`IsNumeral n text` relates a number to the texts that are read as that number.
-/

namespace CharStream

open MachineInt

/-- White space in the `"C"` locale. -/
def isBlank (c : Char) : Bool := c = ' ' || '\t' ≤ c && c ≤ '\r'

/-- Skip white space; a stream that is not good skips nothing. -/
def IStream.ws (s : IStream Char) : IStream Char :=
  if s.good then ⟨s.rest.dropWhile isBlank, (s.rest.dropWhile isBlank).isEmpty, false⟩
  else { s with failbit := true }

/-- A sign, if there is one: whether it is a minus, and what follows it. -/
def takeSign : List Char → Bool × List Char
  | '-' :: rest => (true, rest)
  | '+' :: rest => (false, rest)
  | rest => (false, rest)

/-- The number with a sign and digits. -/
def signed (negative : Bool) (digits : List Char) : ℤ :=
  if negative then -(Nat.ofDigitChars 10 digits 0 : ℤ) else Nat.ofDigitChars 10 digits 0

end CharStream

namespace MachineInt

/-- The value of the type nearest to a number. -/
def CInt.nearest (t : IntType) (n : ℤ) : CInt t where
  val := max t.least (min n (t.least + 2 ^ t.width - 1))
  inRange := by
    have hpos : (0 : ℤ) < 2 ^ t.width := by positivity
    constructor <;> omega

end MachineInt

namespace CharStream

open MachineInt

/-- `>>` into an integer; `none` when nothing is assigned. -/
def IStream.getInt (t : IntType) (s : IStream Char) : Option (CInt t) × IStream Char :=
  match s.skipSpace isBlank with
  | (false, s) => (none, s)
  | (true, s) =>
    let (negative, rest) := takeSign s.rest
    let digits := rest.takeWhile Char.isDigit
    let rest := rest.dropWhile Char.isDigit
    let n := signed negative digits
    -- A read that fails assigns all the same.
    if digits = [] then (some 0, ⟨rest, rest.isEmpty, true⟩)
    else (some (.nearest t n), ⟨rest, rest.isEmpty, !decide (t.InRange n)⟩)

/-! ## Numerals -/

/-- The text of a number: a sign or none, and at least one digit. -/
def IsNumeral (n : ℤ) (text : List Char) : Prop :=
  ∃ sign digits, text = sign ++ digits ∧ (sign = [] ∨ sign = ['+'] ∨ sign = ['-']) ∧ digits ≠ []
    ∧ (∀ c ∈ digits, c.isDigit = true) ∧ n = signed (sign = ['-']) digits

/-- The shortest numeral of a number. -/
def numeral (n : ℤ) : List Char :=
  (if n < 0 then ['-'] else []) ++ Nat.toDigits 10 n.natAbs

theorem isNumeral_numeral (n : ℤ) : IsNumeral n (numeral n) := by
  refine ⟨_, _, rfl, ?_, Nat.toDigits_ne_nil, fun c hc ↦ Nat.isDigit_of_mem_toDigits (by decide)
    le_rfl hc, ?_⟩
  · split_ifs
    · exact Or.inr (Or.inr rfl)
    · exact Or.inl rfl
  · rw [signed, Nat.ofDigitChars_ten_toDigits]
    by_cases hneg : n < 0
    · rw [if_pos hneg, if_pos (by simp)]
      omega
    · rw [if_neg hneg, if_neg (by simp)]
      omega

theorem numeral_natCast (n : ℕ) : numeral n = Nat.toDigits 10 n := by
  rw [numeral, if_neg (by omega), Int.natAbs_natCast, List.nil_append]

/-- It is what `repr` gives. -/
theorem toList_repr (n : ℤ) : n.repr.toList = numeral n := by
  cases n with
  | ofNat n => exact Nat.toList_repr.trans (numeral_natCast n).symm
  | negSucc n =>
    rw [Int.repr, numeral, if_pos (Int.negSucc_lt_zero n)]
    simp

/-- The characters of numerals without a plus. -/
def isNumeric (c : Char) : Bool := c.isDigit || c = '-'

theorem isNumeric_of_mem_numeral {n : ℤ} {c : Char} (h : c ∈ numeral n) : isNumeric c = true := by
  rw [isNumeric, Bool.or_eq_true, decide_eq_true_eq]
  rcases List.mem_append.mp h with h | h
  · split_ifs at h
    · exact Or.inr (List.mem_singleton.mp h)
    · exact absurd h List.not_mem_nil
  · exact Or.inl (Nat.isDigit_of_mem_toDigits (by decide) le_rfl h)

/-- A numeral is shorter than a column of this width exactly when its number is small. -/
theorem length_numeral_lt_iff {n : ℤ} {k : ℕ} (hk : 0 < k) :
    (numeral n).length < k + 2 ↔ -10 ^ k < n ∧ n < 10 ^ (k + 1) := by
  have hdigits {k : ℕ} (hk : 0 < k) :
      (Nat.toDigits 10 n.natAbs).length < k + 1 ↔ (n.natAbs : ℤ) < 10 ^ k := by
    rw [Nat.lt_succ_iff, Nat.length_toDigits_le_iff (by decide) hk]
    exact_mod_cast Iff.rfl
  have hpos : (0 : ℤ) < 10 ^ k := by positivity
  rw [numeral, List.length_append]
  by_cases hneg : n < 0
  · have hdigits := hdigits hk
    rw [if_pos hneg, List.length_singleton, show 1 + (Nat.toDigits 10 n.natAbs).length < k + 2
      ↔ (Nat.toDigits 10 n.natAbs).length < k + 1 by omega, hdigits, pow_succ]
    omega
  · rw [if_neg hneg, List.length_nil, zero_add, hdigits (Nat.succ_pos k)]
    omega

/-- A numeral can be read back. -/
theorem signed_takeSign_numeral (n : ℤ) :
    signed (takeSign (numeral n)).1 (takeSign (numeral n)).2 = n := by
  have hsign : takeSign (numeral n) = (decide (n < 0), Nat.toDigits 10 n.natAbs) := by
    by_cases hneg : n < 0
    · rw [numeral, if_pos hneg, decide_eq_true hneg]
      rfl
    · -- A digit is no sign, so nothing is taken off.
      rw [numeral, if_neg hneg, decide_eq_false hneg, List.nil_append, takeSign]
      · rintro rest hrest
        have hdigit := Nat.isDigit_of_mem_toDigits (b := 10) (c := '-') (n := n.natAbs) (by decide)
          le_rfl (hrest ▸ List.mem_cons_self)
        exact absurd hdigit (by decide)
      · rintro rest hrest
        have hdigit := Nat.isDigit_of_mem_toDigits (b := 10) (c := '+') (n := n.natAbs) (by decide)
          le_rfl (hrest ▸ List.mem_cons_self)
        exact absurd hdigit (by decide)
  rw [hsign, signed, Nat.ofDigitChars_ten_toDigits]
  by_cases hneg : n < 0
  · rw [if_pos (decide_eq_true hneg)]
    omega
  · rw [if_neg (by simpa using hneg)]
    omega

theorem isDigit_of_isBlank {c : Char} (h : isBlank c = true) : c.isDigit = false := by
  by_contra hdigit
  rw [Bool.not_eq_false, Char.isDigit_iff_toNat] at hdigit
  rw [isBlank, Bool.or_eq_true, Bool.and_eq_true, decide_eq_true_eq, decide_eq_true_eq,
    decide_eq_true_eq, Char.le_def, Char.le_def] at h
  rcases h with rfl | ⟨-, h⟩
  · exact absurd hdigit (by decide)
  · have hle : c.toNat ≤ 13 := h
    have hge : 48 ≤ c.toNat := hdigit.1
    omega

/-- What is left when white space is skipped. -/
theorem skipSpace_ofList {isSpace : Char → Bool} {text rest : List Char} {c : Char}
    (h : text.dropWhile isSpace = c :: rest) :
    (IStream.ofList text).skipSpace isSpace = (true, .ofList (c :: rest)) := by
  rw [IStream.skipSpace, if_pos (IStream.good_ofList _)]
  simp only [IStream.ofList, h]

/-- Nothing but white space. -/
theorem getInt_blank (t : IntType) {gap : List Char} (hgap : ∀ c ∈ gap, isBlank c = true) :
    (IStream.ofList gap).getInt t = (none, ⟨[], true, true⟩) := by
  have hdrop : gap.dropWhile isBlank = [] := List.dropWhile_eq_nil_iff.mpr hgap
  rw [IStream.getInt, IStream.skipSpace, if_pos (IStream.good_ofList _)]
  simp only [IStream.ofList, hdrop]

/-- A sign, what `takeSign` makes of it, and no other sign after it. -/
inductive SignOf : List Char → Bool → List Char → Prop
  | none {rest : List Char} : (∀ c ∈ rest.head?, c ≠ '+' ∧ c ≠ '-') → SignOf [] false rest
  | plus {rest : List Char} : SignOf ['+'] false rest
  | minus {rest : List Char} : SignOf ['-'] true rest

theorem SignOf.takeSign_eq {sign rest : List Char} {negative : Bool}
    (h : SignOf sign negative rest) : takeSign (sign ++ rest) = (negative, rest) := by
  cases h with
  | none h =>
    rw [List.nil_append, takeSign]
    · rintro rest' rfl
      exact (h _ rfl).2 rfl
    · rintro rest' rfl
      exact (h _ rfl).1 rfl
  | plus => rfl
  | minus => rfl

theorem exists_signOf (text : List Char) :
    ∃ sign negative rest, text = sign ++ rest ∧ SignOf sign negative rest := by
  cases text with
  | nil => exact ⟨[], false, [], rfl, .none (by simp)⟩
  | cons c rest =>
    by_cases hplus : c = '+'
    · exact ⟨['+'], false, rest, by rw [hplus]; rfl, .plus⟩
    · by_cases hminus : c = '-'
      · exact ⟨['-'], true, rest, by rw [hminus]; rfl, .minus⟩
      · refine ⟨[], false, c :: rest, rfl, .none fun d hd ↦ ?_⟩
        obtain rfl := Option.some.inj hd
        exact ⟨hplus, hminus⟩

theorem SignOf.sign_cases {sign rest : List Char} {negative : Bool}
    (h : SignOf sign negative rest) :
    (sign = [] ∨ sign = ['+'] ∨ sign = ['-']) ∧ negative = decide (sign = ['-']) := by
  cases h <;> simp

/-- A text in the parts that a formatted read sees. -/
structure IntParts (gap sign digits rest : List Char) (negative : Bool) : Prop where
  blank_gap : ∀ c ∈ gap, isBlank c = true
  signOf : SignOf sign negative (digits ++ rest)
  isDigit_digits : ∀ c ∈ digits, c.isDigit = true
  head_rest : ∀ c ∈ rest.head?, c.isDigit = false
  head_body : ∀ c ∈ (sign ++ (digits ++ rest)).head?, isBlank c = false
  ne_nil : sign ++ (digits ++ rest) ≠ []

theorem head?_dropWhile_eq_false {p : Char → Bool} {text : List Char} :
    ∀ c ∈ (text.dropWhile p).head?, p c = false := by
  intro c hc
  have h := List.head?_dropWhile_not p text
  rw [Option.mem_def.mp hc] at h
  exact h

/-- Every text has such parts, or is blank. -/
theorem blank_or_intParts (text : List Char) :
    (∀ c ∈ text, isBlank c = true) ∨ ∃ gap sign digits rest negative,
      text = gap ++ (sign ++ (digits ++ rest)) ∧ IntParts gap sign digits rest negative := by
  rcases eq_or_ne (text.dropWhile isBlank) [] with hnil | hne
  · exact Or.inl (List.dropWhile_eq_nil_iff.mp hnil)
  · right
    obtain ⟨sign, negative, body, hbody, hsign⟩ := exists_signOf (text.dropWhile isBlank)
    have hsplit : body.takeWhile Char.isDigit ++ body.dropWhile Char.isDigit = body :=
      List.takeWhile_append_dropWhile
    refine ⟨text.takeWhile isBlank, sign, body.takeWhile Char.isDigit, body.dropWhile Char.isDigit,
      negative, ?_, fun c hc ↦ List.all_eq_true.mp List.all_takeWhile c hc, ?_,
      fun c hc ↦ List.all_eq_true.mp List.all_takeWhile c hc, head?_dropWhile_eq_false, ?_, ?_⟩
    · rw [hsplit, ← hbody, List.takeWhile_append_dropWhile]
    · rwa [hsplit]
    · rw [hsplit, ← hbody]
      exact head?_dropWhile_eq_false
    · rwa [hsplit, ← hbody]

/-- **What a formatted read does** with a text in parts. -/
theorem IntParts.getInt_eq (t : IntType) {gap sign digits rest : List Char} {negative : Bool}
    (h : IntParts gap sign digits rest negative) :
    (IStream.ofList (gap ++ (sign ++ (digits ++ rest)))).getInt t
      = if digits = [] then (some 0, ⟨rest, rest.isEmpty, true⟩)
        else (some (.nearest t (signed negative digits)),
          ⟨rest, rest.isEmpty, !decide (t.InRange (signed negative digits))⟩) := by
  have htake : (digits ++ rest).takeWhile Char.isDigit = digits
      ∧ (digits ++ rest).dropWhile Char.isDigit = rest := by
    rw [List.takeWhile_append_of_pos h.isDigit_digits, List.dropWhile_append_of_pos h.isDigit_digits]
    cases rest with
    | nil => simp
    | cons c rest =>
      have hc := h.head_rest c rfl
      simp [hc]
  obtain ⟨c, body, hbody⟩ := List.exists_cons_of_ne_nil h.ne_nil
  -- The gap is all that is skipped, since the body does not start with white space.
  have hskip : (gap ++ (sign ++ (digits ++ rest))).dropWhile isBlank = c :: body := by
    have hhead := h.head_body
    rw [hbody] at hhead ⊢
    rw [List.dropWhile_append_of_pos h.blank_gap,
      List.dropWhile_cons_of_neg (by rw [hhead c rfl]; decide)]
  rw [IStream.getInt, skipSpace_ofList hskip, ← hbody]
  simp only [IStream.ofList, h.signOf.takeSign_eq, htake.1, htake.2]

/-- A numeral with white space around it, in parts. -/
theorem IsNumeral.exists_intParts {n : ℤ} {gap text gap' : List Char}
    (h : IsNumeral n text) (hgap : ∀ c ∈ gap, isBlank c = true)
    (hgap' : ∀ c ∈ gap', isBlank c = true) :
    ∃ sign digits negative, gap ++ text ++ gap' = gap ++ (sign ++ (digits ++ gap'))
      ∧ digits ≠ [] ∧ n = signed negative digits ∧ IntParts gap sign digits gap' negative := by
  obtain ⟨sign, digits, rfl, hsigns, hne, hdigits, rfl⟩ := h
  obtain ⟨d, tail, rfl⟩ := List.exists_cons_of_ne_nil hne
  have hd : d.isDigit = true := hdigits d List.mem_cons_self
  have hsigned : d ≠ '+' ∧ d ≠ '-' := by
    constructor <;>
    · rintro rfl
      exact absurd hd (by decide)
  have hblank : isBlank d = false := by
    by_contra hblank
    rw [isDigit_of_isBlank (by simpa using hblank)] at hd
    exact absurd hd (by decide)
  refine ⟨sign, d :: tail, decide (sign = ['-']), by rw [List.append_assoc, List.append_assoc],
    hne, rfl, hgap, ?_, hdigits, fun c hc ↦ isDigit_of_isBlank (hgap' c (List.mem_of_mem_head? hc)),
    ?_, by simp⟩
  · rcases hsigns with rfl | rfl | rfl
    · exact .none (by simpa using hsigned)
    · exact .plus
    · exact .minus
  · rcases hsigns with rfl | rfl | rfl
    · simpa using hblank
    · simp [isBlank]
    · simp [isBlank]

end CharStream
