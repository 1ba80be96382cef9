import Mathlib.Tactic.FieldSimp
import WorkloadAwareCompaction.Library.MachineInt

/-!
# The derived statistics

`printStats` prints counters and computes two ratios from them, of updates to inserts and of
superfluous to unique bytes. Before the first stands a loop over the files in the tree whose body
is commented out, so that the next statement is its body: the ratio is computed once for each file.
In the second, the counters are signed and the sizes unsigned, and the product that counts the
unique bytes is formed in 64 unsigned bits.

A `float` is read as an exact rational number, `none` being what is none.
-/

namespace WorkloadAwareCompaction

open MachineInt

/-- A floating-point value; `none` for an infinity or NaN. -/
abbrev FloatValue := Option ℚ

/-- A division of floating-point values. -/
def divide (x y : ℚ) : FloatValue := if y = 0 then none else some (x / y)

structure FadeFileInfo where
  fileId : String
  fileLevel : CInt .int
  fileEntryCount : CInt .long
  fileTombstoneCount : CInt .long
  fileSize : CInt .long
  fileAge : FloatValue
  fileTtlExpired : Bool

/-- The counters, and what is derived from them. -/
structure Stats where
  keySize : CInt .uint64
  valueSize : CInt .uint64
  insertsCompleted : CInt .long
  updatesCompleted : CInt .long
  updateProportion : FloatValue
  pointDeletesCompleted : CInt .long
  rangeDeletesCompleted : CInt .long
  pointQueriesCompleted : CInt .long
  rangeQueriesCompleted : CInt .long
  levelsInTree : CInt .int
  filesInTree : CInt .long
  keyValuesInTree : CInt .long
  pointTombstonesInTree : CInt .long
  rangeTombstonesInTree : CInt .long
  filesInLevel : List (CInt .int)
  fadeFileInfo : List FadeFileInfo
  compactionCount : CInt .long
  compactionsByPointerManipulation : CInt .long
  filesReadForCompaction : CInt .long
  bytesReadForCompaction : CInt .long
  filesWrittenAfterCompaction : CInt .long
  bytesWrittenAfterCompaction : CInt .long
  spaceAmp : FloatValue
  writeAmp : FloatValue
  expRuntime : CInt .long
  completionStatus : Bool
  dbOpen : Bool

namespace Stats

/-! ## The computation -/

/-- `update_proportion = (float) updates_completed / (float) inserts_completed`. -/
def setUpdateProportion (s : Stats) : Stats :=
  { s with updateProportion := divide s.updatesCompleted.val s.insertsCompleted.val }

/-- `for (int i = ...; i < files_in_tree; ++i)`, with the assignment as its body. Counting beyond
the largest `int` is undefined. -/
def fileLoop : ℕ → CInt .int → Stats → Option Stats
  | 0, _, _ => none
  | fuel + 1, i, s =>
    if i.val < s.filesInTree.val then do
      let next ← CInt.checked .int (i.val + 1)
      fileLoop fuel next s.setUpdateProportion
    else some s

/-- `(float) point_tombstones_in_tree * (key_size + 1)`. -/
def superfluousBytes (s : Stats) : ℚ :=
  s.pointTombstonesInTree.val * (s.keySize.wrappingAdd 1).val

/-- `(inserts_completed - point_deletes_completed) * (key_size + value_size)`: a `long` times a
`uint64_t`. -/
def uniqueBytes (s : Stats) : Option (CInt .uint64) := do
  let keys ← CInt.checked .long (s.insertsCompleted.val - s.pointDeletesCompleted.val)
  some ((keys.convert .uint64).wrappingMul (s.keySize.wrappingAdd s.valueSize))

/-- What `printStats` computes; `none` where its behaviour is undefined. Fuel for one more than the
number of files is enough. -/
def printStats (s : Stats) : Option Stats := do
  let s ← s.fileLoop (s.filesInTree.val.toNat + 1) 0
  let uniqueBytes ← s.uniqueBytes
  some { s with spaceAmp := divide (100 * s.superfluousBytes) uniqueBytes.val }

/-! ## The loop -/

/-- The body of the loop runs if there is a file, and running it again changes nothing. -/
theorem fileLoop_of_lt {s : Stats} (hfiles : s.filesInTree.val < 2 ^ 31) {fuel : ℕ}
    {i : CInt .int} (hi : i.val ≤ s.filesInTree.val) (hfuel : s.filesInTree.val - i.val < fuel) :
    s.fileLoop fuel i
      = some (if i.val < s.filesInTree.val then s.setUpdateProportion else s) := by
  induction fuel generalizing i s with
  | zero => exact absurd hfuel (by push_cast; omega)
  | succ fuel ih =>
    rw [fileLoop]
    split_ifs with hlt
    · have hrange : IntType.int.InRange (i.val + 1) :=
        ⟨i.inRange.1.trans (by omega), show i.val + 1 < 2 ^ 31 by omega⟩
      rw [CInt.checked_of_inRange hrange]
      push_cast at hfuel
      refine (ih (s := s.setUpdateProportion) hfiles (i := ⟨_, hrange⟩) hlt ?_).trans ?_
      · show s.filesInTree.val - (i.val + 1) < fuel
        omega
      · split_ifs <;> rfl
    · rfl

/-- More files than the largest `int` make the loop undefined. -/
theorem fileLoop_of_le {s : Stats} (hfiles : 2 ^ 31 ≤ s.filesInTree.val) (fuel : ℕ)
    (i : CInt .int) : s.fileLoop fuel i = none := by
  induction fuel generalizing i s with
  | zero => rfl
  | succ fuel ih =>
    have hi : i.val < 2 ^ 31 := i.inRange.2
    rw [fileLoop, if_pos (hi.trans_le hfiles)]
    cases hnext : CInt.checked .int (i.val + 1) with
    | none => rfl
    | some next => exact ih (s := s.setUpdateProportion) hfiles next

/-! ## The ratio of bytes -/

theorem val_wrappingAdd_one (s : Stats) :
    (s.keySize.wrappingAdd 1).val = (s.keySize.val + 1) % 2 ^ 64 :=
  IntType.wrap_unsigned rfl _

/-- The unique bytes modulo `2 ^ 64`. -/
theorem exists_uniqueBytes {s : Stats} (hinserts : 0 ≤ s.insertsCompleted.val)
    (hdeletes : 0 ≤ s.pointDeletesCompleted.val) :
    ∃ bytes, s.uniqueBytes = some bytes
      ∧ bytes.val = (s.insertsCompleted.val - s.pointDeletesCompleted.val)
        * (s.keySize.val + s.valueSize.val) % 2 ^ 64 := by
  have hinserts' : s.insertsCompleted.val < 2 ^ 63 := s.insertsCompleted.inRange.2
  have hdeletes' : s.pointDeletesCompleted.val < 2 ^ 63 := s.pointDeletesCompleted.inRange.2
  have hrange : IntType.long.InRange (s.insertsCompleted.val - s.pointDeletesCompleted.val) := by
    constructor
    · show -2 ^ 63 ≤ s.insertsCompleted.val - s.pointDeletesCompleted.val
      omega
    · show s.insertsCompleted.val - s.pointDeletesCompleted.val < 2 ^ 63
      omega
  refine ⟨_, Option.bind_eq_some_iff.mpr ⟨_, CInt.checked_of_inRange hrange, rfl⟩, ?_⟩
  refine Eq.trans (IntType.wrap_congr ?_) (IntType.wrap_unsigned rfl _)
  exact (IntType.wrap_modEq _ _).mul (IntType.wrap_modEq _ _)

/-- Fractions with a common positive factor. -/
theorem fraction_eq_iff {tombstones entry entry' unique unique' : ℤ} (htombstones : 0 < tombstones)
    (hunique : unique ≠ 0) (hunique' : unique' ≠ 0) :
    (100 * (tombstones * entry') / unique' : ℚ) = 100 * tombstones * entry / unique
      ↔ entry' * unique = entry * unique' := by
  have hne : (100 * tombstones : ℚ) ≠ 0 := by positivity
  rw [div_eq_div_iff (by exact_mod_cast hunique') (by exact_mod_cast hunique), ← mul_assoc,
    mul_assoc, mul_assoc _ (entry : ℚ), mul_right_inj' hne]
  exact_mod_cast Iff.rfl

/-- When the ratio computed from the reduced numbers is the exact one. -/
theorem divide_emod_eq_iff {tombstones entry unique : ℤ} (htombstones : 0 ≤ tombstones)
    (hentry : 0 < entry) (hentry' : entry ≤ 2 ^ 64) (hunique : unique ≠ 0) :
    divide (100 * (tombstones * (entry % 2 ^ 64 : ℤ))) (unique % 2 ^ 64 : ℤ)
        = some (100 * tombstones * entry / unique : ℚ)
      ↔ tombstones = 0 ∧ ¬2 ^ 64 ∣ unique
        ∨ 0 < tombstones ∧ entry < 2 ^ 64 ∧ 0 < unique ∧ unique < 2 ^ 64 := by
  by_cases hdvd : 2 ^ 64 ∣ unique
  · -- Dividing by 0 gives no number, and a multiple of `2 ^ 64` is not below it.
    have hzero : unique % 2 ^ 64 = 0 := Int.emod_eq_zero_of_dvd hdvd
    rw [divide, hzero, Int.cast_zero, if_pos rfl]
    refine iff_of_false (Option.some_ne_none _).symm ?_
    rintro (⟨-, hnot⟩ | ⟨-, -, hpos, hlt⟩)
    · exact hnot hdvd
    · exact absurd (Int.le_of_dvd hpos hdvd) (not_le.mpr hlt)
  · have hne : unique % 2 ^ 64 ≠ 0 := fun hzero ↦ hdvd (Int.dvd_of_emod_eq_zero hzero)
    rw [divide, if_neg (by exact_mod_cast hne), Option.some_inj]
    rcases htombstones.eq_or_lt with rfl | hpos
    · exact iff_of_true (by simp) (Or.inl ⟨rfl, hdvd⟩)
    · rw [fraction_eq_iff hpos hunique hne]
      constructor
      · intro heq
        refine Or.inr ⟨hpos, ?_⟩
        rcases hentry'.lt_or_eq with hlt | rfl
        · rw [Int.emod_eq_of_lt hentry.le hlt] at heq
          have hself := mul_left_cancel₀ hentry.ne' heq
          omega
        · exact absurd heq (by omega)
      · rintro (⟨hzero, -⟩ | ⟨-, hlt, hunique_pos, hunique_lt⟩)
        · exact absurd hzero hpos.ne'
        · rw [Int.emod_eq_of_lt hentry.le hlt, Int.emod_eq_of_lt hunique_pos.le hunique_lt]

/-! ## The derived fields -/

/-- `printStats` is defined, sets the two derived fields to what their formulas say, and changes no
other. -/
def DerivedExact (s : Stats) : Prop :=
  ∃ s', s.printStats = some s'
    ∧ s'.updateProportion = some (s.updatesCompleted.val / s.insertsCompleted.val : ℚ)
    ∧ s'.spaceAmp = some (100 * s.pointTombstonesInTree.val * (s.keySize.val + 1)
      / ((s.insertsCompleted.val - s.pointDeletesCompleted.val)
        * (s.keySize.val + s.valueSize.val)) : ℚ)
    ∧ { s' with updateProportion := s.updateProportion, spaceAmp := s.spaceAmp } = s

/-- The counters are those of a running experiment: none is negative, there are inserts, not as many
deletes, and an entry has a size. -/
structure Counting (s : Stats) : Prop where
  inserts_pos : 0 < s.insertsCompleted.val
  updates_nonneg : 0 ≤ s.updatesCompleted.val
  deletes_nonneg : 0 ≤ s.pointDeletesCompleted.val
  files_nonneg : 0 ≤ s.filesInTree.val
  tombstones_nonneg : 0 ≤ s.pointTombstonesInTree.val
  size_pos : 0 < s.keySize.val + s.valueSize.val
  deletes_ne : s.pointDeletesCompleted.val ≠ s.insertsCompleted.val

/-- The result of `printStats`, the two derived fields given. -/
theorem printStats_eq {s : Stats} (hnonneg : 0 ≤ s.filesInTree.val)
    (hfiles : s.filesInTree.val < 2 ^ 31) {bytes : CInt .uint64}
    (hbytes : s.uniqueBytes = some bytes) : s.printStats = some { s with
      updateProportion := if 0 < s.filesInTree.val
        then divide s.updatesCompleted.val s.insertsCompleted.val else s.updateProportion
      spaceAmp := divide (100 * s.superfluousBytes) bytes.val } := by
  have hfuel : s.filesInTree.val - (0 : CInt .int).val < (s.filesInTree.val.toNat + 1 : ℕ) := by
    show s.filesInTree.val - 0 < _
    omega
  have hloop : s.fileLoop (s.filesInTree.val.toNat + 1) 0
      = some (if 0 < s.filesInTree.val then s.setUpdateProportion else s) :=
    fileLoop_of_lt hfiles hnonneg hfuel
  rw [printStats, hloop]
  split_ifs
  all_goals
    refine Option.bind_eq_some_iff.mpr ⟨_, rfl, ?_⟩
    exact Option.bind_eq_some_iff.mpr ⟨bytes, hbytes, rfl⟩

/-- When the space amplification is what its formula says, of `unique` bytes. -/
theorem spaceAmp_eq_iff {s : Stats} (htombstones : 0 ≤ s.pointTombstonesInTree.val) {unique : ℤ}
    (hunique : unique ≠ 0) {bytes : CInt .uint64} (hbytes : bytes.val = unique % 2 ^ 64) :
    divide (100 * s.superfluousBytes) bytes.val
        = some (100 * s.pointTombstonesInTree.val * (s.keySize.val + 1) / unique : ℚ)
      ↔ s.pointTombstonesInTree.val = 0 ∧ ¬2 ^ 64 ∣ unique
        ∨ 0 < s.pointTombstonesInTree.val ∧ s.keySize.val + 1 < 2 ^ 64
          ∧ 0 < unique ∧ unique < 2 ^ 64 := by
  have hnonneg : 0 ≤ s.keySize.val := s.keySize.inRange.1
  have hlt : s.keySize.val < 2 ^ 64 := s.keySize.inRange.2
  have hentry : 0 < s.keySize.val + 1 := by omega
  rw [superfluousBytes, val_wrappingAdd_one, hbytes,
    ← divide_emod_eq_iff htombstones hentry hlt hunique]
  push_cast
  rfl

/-- **When the derived fields are what their formulas say**: when there are files in the tree,
though not more than the largest `int`, or the proportion was right before; and when the sizes and
the unique bytes fit into 64 unsigned bits, or, without tombstones, the unique bytes are not a
multiple of `2 ^ 64`. -/
theorem derivedExact_iff {s : Stats} (h : s.Counting) :
    s.DerivedExact ↔ s.filesInTree.val < 2 ^ 31
      ∧ (0 < s.filesInTree.val ∨
        s.updateProportion = some (s.updatesCompleted.val / s.insertsCompleted.val : ℚ))
      ∧ (s.pointTombstonesInTree.val = 0
          ∧ ¬2 ^ 64 ∣ (s.insertsCompleted.val - s.pointDeletesCompleted.val)
            * (s.keySize.val + s.valueSize.val)
        ∨ 0 < s.pointTombstonesInTree.val ∧ s.keySize.val + 1 < 2 ^ 64
          ∧ 0 < (s.insertsCompleted.val - s.pointDeletesCompleted.val)
            * (s.keySize.val + s.valueSize.val)
          ∧ (s.insertsCompleted.val - s.pointDeletesCompleted.val)
            * (s.keySize.val + s.valueSize.val) < 2 ^ 64) := by
  obtain ⟨bytes, hbytes, hval⟩ := exists_uniqueBytes h.inserts_pos.le h.deletes_nonneg
  by_cases hfiles : s.filesInTree.val < 2 ^ 31
  · have hprint := printStats_eq h.files_nonneg hfiles hbytes
    have hproportion : divide s.updatesCompleted.val s.insertsCompleted.val
        = some (s.updatesCompleted.val / s.insertsCompleted.val : ℚ) :=
      if_neg (by exact_mod_cast h.inserts_pos.ne')
    have hunique : (s.insertsCompleted.val - s.pointDeletesCompleted.val)
        * (s.keySize.val + s.valueSize.val) ≠ 0 :=
      mul_ne_zero (sub_ne_zero.mpr h.deletes_ne.symm) h.size_pos.ne'
    rw [← spaceAmp_eq_iff h.tombstones_nonneg hunique hval, Int.cast_mul, Int.cast_sub,
      Int.cast_add]
    constructor
    · rintro ⟨s', hs', hupdate, hspace, -⟩
      obtain rfl := Option.some.inj (hprint.symm.trans hs')
      refine ⟨hfiles, or_iff_not_imp_left.mpr fun hempty ↦ ?_, hspace⟩
      exact (if_neg hempty).symm.trans hupdate
    · rintro ⟨-, hupdate, hspace⟩
      refine ⟨_, hprint, ?_, hspace, rfl⟩
      show (if 0 < s.filesInTree.val then _ else _) = _
      split_ifs with hpos
      · exact hproportion
      · exact hupdate.resolve_left hpos
  · refine iff_of_false ?_ fun hcondition ↦ hfiles hcondition.1
    rintro ⟨s', hprint, -⟩
    rw [printStats, fileLoop_of_le (not_lt.mp hfiles)] at hprint
    exact absurd hprint (by simp)

/-- An experiment with one file, ten inserts of 16 bytes, two deletes and one tombstone. -/
def small (files deletes : CInt .long) : Stats where
  keySize := 8
  valueSize := 8
  insertsCompleted := 10
  updatesCompleted := 5
  updateProportion := some (-1)
  pointDeletesCompleted := deletes
  rangeDeletesCompleted := 0
  pointQueriesCompleted := 0
  rangeQueriesCompleted := 0
  levelsInTree := 1
  filesInTree := files
  keyValuesInTree := 10
  pointTombstonesInTree := 1
  rangeTombstonesInTree := 0
  filesInLevel := []
  fadeFileInfo := []
  compactionCount := 0
  compactionsByPointerManipulation := 0
  filesReadForCompaction := 0
  bytesReadForCompaction := 0
  filesWrittenAfterCompaction := 0
  bytesWrittenAfterCompaction := 0
  spaceAmp := some (-1)
  writeAmp := some (-1)
  expRuntime := 0
  completionStatus := false
  dbOpen := false

theorem counting_small (files deletes : CInt .long) (hfiles : 0 ≤ files.val)
    (hdeletes : 0 ≤ deletes.val) (hne : deletes.val ≠ 10) : (small files deletes).Counting where
  inserts_pos := show 0 < (10 : CInt .long).val by decide
  updates_nonneg := show 0 ≤ (5 : CInt .long).val by decide
  deletes_nonneg := hdeletes
  files_nonneg := hfiles
  tombstones_nonneg := show 0 ≤ (1 : CInt .long).val by decide
  size_pos := show 0 < (8 : CInt .uint64).val + (8 : CInt .uint64).val by decide
  deletes_ne := hne

theorem derivedExact_small : (small 1 2).DerivedExact :=
  (derivedExact_iff (counting_small 1 2 (by decide) (by decide) (by decide))).mpr
    (by decide +kernel)

/-- Without a file the proportion stays at -1; with more deletes than inserts the unique bytes wrap
around, and the amplification is not negative. -/
theorem not_derivedExact_small :
    ((small 0 2).Counting ∧ ¬(small 0 2).DerivedExact)
      ∧ (small 1 11).Counting ∧ ¬(small 1 11).DerivedExact := by
  have hfield {α : Type} {s s' : Stats} {field : Stats → α} {a b : α}
      (heval : s.printStats.map field = some a) (hs' : s.printStats = some s')
      (hfield : field s' = b) : a = b := by
    rw [hs'] at heval
    exact (Option.some.inj heval).symm.trans hfield
  refine ⟨⟨counting_small 0 2 (by decide) (by decide) (by decide), ?_⟩,
    counting_small 1 11 (by decide) (by decide) (by decide), ?_⟩
  · rintro ⟨s', hs', hupdate, -, -⟩
    have hkept : (small 0 2).printStats.map (·.updateProportion) = some (some (-1)) := by
      decide +kernel
    exact absurd (hfield hkept hs' hupdate) (by decide +kernel)
  · rintro ⟨s', hs', -, hspace, -⟩
    have hwrapped : (small 1 11).printStats.map (·.spaceAmp)
        = some (some (900 / (2 ^ 64 - 16))) := by
      decide +kernel
    exact absurd (hfield hwrapped hs' hspace) (by decide +kernel)

end Stats

end WorkloadAwareCompaction
