import WorkloadAwareCompaction.Setup.CommandLine
import WorkloadAwareCompaction.Setup.Options

/-!
# From the numbers to the options

What a command line that spells settings with numerals makes of the environment and of the options.
Only two of the settings can leave the behaviour of the program undefined: the size ratio, from which
1 is subtracted before the conversion to `int`, and the size of the block cache, which is multiplied
in `int` (`exists_parseArguments_iff`, `exists_configOptions_iff`). Everything else is accepted,
whatever it means.
-/

namespace WorkloadAwareCompaction

open MachineInt

/-- The last number given to a flag. -/
def setting (numbers : List (Flag × ℤ)) (f : Flag) : Option ℤ := (own f numbers).getLast?

/-- Whether a switch is on. -/
def isOn (numbers : List (Flag × ℤ)) (f : Flag) (default : Bool) : Bool :=
  (setting numbers f).elim default (· ≠ 0)

/-- The settings with which the behaviour of the program is defined: the size ratio minus 1 and the
size of the block cache in bytes are an `int`. -/
structure Defined (numbers : List (Flag × ℤ)) : Prop where
  sizeRatio : ∀ n, setting numbers .sizeRatio = some n → -2 ^ 31 < n
  blockCache : ∀ n, setting numbers .blockCache = some n → -2048 ≤ n ∧ n < 2048

theorem inRange_int {n : ℤ} : IntType.int.InRange n ↔ -2 ^ 31 ≤ n ∧ n < 2 ^ 31 := by
  norm_num [IntType.InRange, IntType.int, IntType.least]

theorem val_nearest_int (n : ℤ) :
    (CInt.nearest .int n).val = max (-2 ^ 31) (min n (2 ^ 31 - 1)) := by
  show max IntType.int.least (min n (IntType.int.least + 2 ^ 32 - 1)) = _
  norm_num [IntType.int, IntType.least]

/-- A switch given by a number. -/
theorem assignBool_nearest (n : Option ℤ) (previous : Bool) :
    assignBool (n.map (CInt.nearest .int)) previous = n.elim previous (· ≠ 0) := by
  cases n with
  | none => rfl
  | some n =>
    have hzero : (CInt.nearest .int n).val ≠ 0 ↔ n ≠ 0 := by
      rw [val_nearest_int]
      omega
    exact decide_eq_decide.mpr hzero

theorem ofRat_intCast (t : IntType) (n : ℤ) : CInt.ofRat t n = CInt.checked t n := by
  rw [CInt.ofRat, Rat.num_intCast, Rat.den_intCast, Nat.cast_one, Int.tdiv_one]

/-- Whole numbers of this size are not rounded. -/
def DoubleArith.ExactOnInts (fp : DoubleArith) : Prop :=
  ∀ n : ℤ, |n| ≤ 2 ^ 53 → fp.round n = n

/-- **When the flags are accepted.** -/
theorem exists_parseArguments_iff {fp : DoubleArith} (hfp : fp.ExactOnInts) (flags : Flags) :
    (∃ env, parseArguments fp (.flags flags) {} = some (.returned 0 env))
      ↔ ∀ T, flags.sizeRatio = some T → -2 ^ 31 < T.val := by
  -- Without the flag the ratio is 4, so either way it is some `T`.
  have hreads {T : CInt .int} (hratio : assignDouble flags.sizeRatio ({} : DBEnv).sizeRatio = T.val) :
      (∃ env, parseArguments fp (.flags flags) {} = some (.returned 0 env)) ↔ -2 ^ 31 < T.val := by
    have hT := T.inRange
    obtain ⟨hge, hlt⟩ := inRange_int.mp hT
    have hstop : CInt.ofRat .int (assignDouble flags.sizeRatio ({} : DBEnv).sizeRatio) = some T := by
      rw [hratio, ofRat_intCast, CInt.checked_of_inRange hT]
    have hround : fp.round (assignDouble flags.sizeRatio ({} : DBEnv).sizeRatio - 1)
        = ((T.val - 1 : ℤ) : ℚ) := by
      rw [← hfp (T.val - 1) (abs_le.mpr ⟨by omega, by omega⟩), hratio, Int.cast_sub, Int.cast_one]
    have hslowdown : CInt.ofRat .int (fp.round (assignDouble flags.sizeRatio ({} : DBEnv).sizeRatio - 1))
        = CInt.checked .int (T.val - 1) := by
      rw [hround, ofRat_intCast]
    constructor
    · rintro ⟨env, h⟩
      obtain ⟨env', hassign, -⟩ := Option.map_eq_some_iff.mp h
      obtain ⟨slowdown, hsome, -⟩ := Option.bind_eq_some_iff.mp hassign
      rw [hslowdown, CInt.checked_eq_some_iff] at hsome
      have hge' := (inRange_int.mp slowdown.inRange).1
      omega
    · intro hgt
      have hrange : IntType.int.InRange (T.val - 1) := inRange_int.mpr ⟨by omega, by omega⟩
      exact ⟨_, parseArguments_eq_some (hslowdown.trans (CInt.checked_of_inRange hrange)) hstop⟩
  cases hflag : flags.sizeRatio with
  | none =>
    rw [hreads (T := 4) (by rw [hflag]; rfl)]
    exact iff_of_true (by decide) fun T hT ↦ absurd hT (by simp)
  | some T =>
    rw [hreads (T := T) (by rw [hflag]; rfl)]
    simp

/-! ## The size of the block cache -/

theorem exists_blockCacheCapacity_iff {env : DBEnv} :
    (∃ capacity, env.blockCacheCapacity = some capacity)
      ↔ -2048 ≤ env.blockCache.val ∧ env.blockCache.val < 2048 := by
  constructor
  · -- The second product is the larger one, and its range the narrower condition.
    rintro ⟨capacity, hcapacity⟩
    obtain ⟨kilobytes, hkilobytes, hcapacity⟩ := Option.bind_eq_some_iff.mp hcapacity
    obtain ⟨bytes, hbytes, -⟩ := Option.bind_eq_some_iff.mp hcapacity
    rw [CInt.checked_eq_some_iff] at hkilobytes hbytes
    obtain ⟨hge, hlt⟩ := inRange_int.mp bytes.inRange
    omega
  · rintro ⟨hge, hlt⟩
    have hkilobytes : IntType.int.InRange (env.blockCache.val * 1024) :=
      inRange_int.mpr ⟨by omega, by omega⟩
    have hbytes : IntType.int.InRange (env.blockCache.val * 1024 * 1024) :=
      inRange_int.mpr ⟨by omega, by omega⟩
    refine ⟨CInt.convert .sizeT ⟨_, hbytes⟩, ?_⟩
    refine Option.bind_eq_some_iff.mpr ⟨_, CInt.checked_of_inRange hkilobytes, ?_⟩
    exact Option.bind_eq_some_iff.mpr ⟨_, CInt.checked_of_inRange hbytes, rfl⟩

theorem isSome_configBlockCache_iff {env : DBEnv} (table : TableOptions) :
    (env.configBlockCache table).isSome = true
      ↔ -2048 ≤ env.blockCache.val ∧ env.blockCache.val < 2048 := by
  rw [DBEnv.configBlockCache]
  split_ifs with hzero
  · rw [hzero]
    exact iff_of_true rfl (by decide)
  · rw [← exists_blockCacheCapacity_iff, ← Option.isSome_iff_exists]
    cases env.blockCacheCapacity <;> rfl

/-- **When the options can be configured.** -/
theorem exists_configOptions_iff {env : DBEnv} {options : StoreOptions} {table : TableOptions}
    {read : ReadOptions} : (∃ configured, configOptions env options table read = some configured)
      ↔ -2048 ≤ env.blockCache.val ∧ env.blockCache.val < 2048 := by
  rw [← isSome_configBlockCache_iff table, ← Option.isSome_iff_exists, configOptions]
  cases env.configBlockCache table <;> rfl

/-! ## The environment -/

section

variable {numbers : List (Flag × ℤ)} {fp : DoubleArith} {env : DBEnv}

/-- What the numbers make of the fields that decide about a run, and of those that have no flag. -/
structure Leads (numbers : List (Flag × ℤ)) (env : DBEnv) : Prop where
  destroyDatabase : env.destroyDatabase = isOn numbers .destroyDatabase true
  isPerOpTimer : env.isPerOpTimer = isOn numbers .enablePerOpTime false
  showProgressBar : env.showProgressBar = isOn numbers .showProgress false
  blockCache : (-2048 ≤ env.blockCache.val ∧ env.blockCache.val < 2048)
    ↔ ∀ n, setting numbers .blockCache = some n → -2048 ≤ n ∧ n < 2048
  createIfMissing : env.createIfMissing = true
  avoidFlushDuringShutdown : env.avoidFlushDuringShutdown = false
  comparator : env.comparator = 1

/-- The block cache of the environment, as far as its size is concerned. -/
theorem blockCache_assignInt_iff (n : Option ℤ) :
    (-2048 ≤ (assignInt (n.map (CInt.nearest .int)) .int 0).val
        ∧ (assignInt (n.map (CInt.nearest .int)) .int 0).val < 2048)
      ↔ ∀ m, n = some m → -2048 ≤ m ∧ m < 2048 := by
  cases n with
  | none => exact iff_of_true (by decide) fun m hm ↦ absurd hm (by simp)
  | some n =>
    have hval : (assignInt ((some n).map (CInt.nearest .int)) .int 0).val
        = max (-2 ^ 31) (min n (2 ^ 31 - 1)) :=
      (IntType.wrap_of_inRange (CInt.nearest .int n).inRange).trans (val_nearest_int n)
    rw [hval]
    simp only [Option.some.injEq, forall_eq']
    omega

theorem leads_of_parseArguments
    (h : parseArguments fp (.flags (FlagValues.last numbers).flags) {} = some (.returned 0 env)) :
    Leads numbers env := by
  obtain ⟨flags, slowdown, stop, trigger, hflags, rfl⟩ := exists_withFlags_of_parseArguments h
  obtain rfl := CommandLine.flags.inj hflags
  exact ⟨assignBool_nearest _ _, assignBool_nearest _ _, assignBool_nearest _ _,
    blockCache_assignInt_iff _, rfl, rfl, rfl⟩

/-- **When the numbers are accepted.** -/
theorem exists_leads_iff (hfp : fp.ExactOnInts) :
    (∃ env, parseArguments fp (.flags (FlagValues.last numbers).flags) {}
        = some (.returned 0 env))
      ↔ ∀ n, setting numbers .sizeRatio = some n → -2 ^ 31 < n := by
  have hflag : (FlagValues.last numbers).flags.sizeRatio
      = (setting numbers .sizeRatio).map (CInt.nearest .int) := rfl
  rw [exists_parseArguments_iff hfp, hflag]
  cases setting numbers .sizeRatio with
  | none => simp
  | some n =>
    simp only [Option.map_some, Option.some.injEq, forall_eq', val_nearest_int]
    omega

end

end WorkloadAwareCompaction
