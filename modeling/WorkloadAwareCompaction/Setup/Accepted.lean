import WorkloadAwareCompaction.Setup.Arguments
import WorkloadAwareCompaction.Setup.Options

/-!
# What an accepted command line means

A field is to hold the value of its flag as the same integer, or what it held before when the flag
is absent. Each field is one conversion away from its flag, so this is a question about the range of
the field's type, the same for all of them (`carries_assignInt_iff`). For the two fields behind a
switch the values have to be named cases as well, and the buffer size in bytes is set to 0 when it
is not given.
-/

namespace WorkloadAwareCompaction

open MachineInt

/-! ## One field -/

/-- The field holds the value of the flag, and its previous value without one. -/
structure Carries {t : IntType} {β : Type} (number : β → ℚ) (flag : Option (CInt t))
    (previous value : β) : Prop where
  given (v : CInt t) : flag = some v → number value = v.val
  absent : flag = none → value = previous

/-- The same for an integer field. -/
abbrev CarriesInt {t t' : IntType} (flag : Option (CInt t)) (previous value : CInt t') : Prop :=
  Carries (fun x ↦ (x.val : ℚ)) flag previous value

section

variable {t t' : IntType} {flag : Option (CInt t)}

/-- An integer field holds the value of its flag when its type has this value. -/
theorem carries_assignInt_default_iff {previous default : CInt t'} :
    CarriesInt flag previous (assignInt flag t' default)
      ↔ (∀ v, flag = some v → t'.InRange v.val) ∧ (flag = none → default = previous) := by
  constructor
  · intro h
    refine ⟨fun v hv ↦ ?_, fun hnone ↦ ?_⟩
    · have hvalue := h.given v hv
      rw [hv] at hvalue
      exact CInt.val_convert_eq_iff.mp (by exact_mod_cast hvalue)
    · have hvalue := h.absent hnone
      rwa [hnone] at hvalue
  · rintro ⟨hgiven, habsent⟩
    refine ⟨fun v hv ↦ ?_, fun hnone ↦ ?_⟩
    · have hvalue := CInt.val_convert_eq_iff.mpr (hgiven v hv)
      rw [hv]
      exact_mod_cast hvalue
    · rw [hnone]
      exact habsent hnone

theorem carries_assignInt_iff {previous : CInt t'} :
    CarriesInt flag previous (assignInt flag t' previous)
      ↔ ∀ v, flag = some v → t'.InRange v.val := by
  rw [carries_assignInt_default_iff]
  exact and_iff_left fun _ ↦ rfl

/-- A field of the flag's own type always holds it. -/
theorem carries_assignInt_self {previous : CInt t} :
    CarriesInt flag previous (assignInt flag t previous) :=
  carries_assignInt_iff.mpr fun v _ ↦ v.inRange

theorem carries_assignDouble {previous : ℚ} :
    Carries id flag previous (assignDouble flag previous) where
  given v hv := by rw [hv]; rfl
  absent hnone := by rw [hnone]; rfl

theorem assignBool_of_none (h : flag = none) (previous : Bool) :
    assignBool flag previous = previous := by
  rw [h]
  rfl

/-- An unsigned field that is wide enough holds every value that is not negative. -/
theorem carries_assignInt_default_iff_nonneg (ht' : t'.signed = false)
    (h : t.least + 2 ^ t.width ≤ 2 ^ t'.width) {previous default : CInt t'} :
    CarriesInt flag previous (assignInt flag t' default)
      ↔ (∀ v, flag = some v → 0 ≤ v.val) ∧ (flag = none → default = previous) := by
  rw [carries_assignInt_default_iff]
  exact and_congr_left' (forall₂_congr fun v _ ↦ CInt.inRange_iff_nonneg ht' h)

theorem carries_assignInt_iff_nonneg (ht' : t'.signed = false)
    (h : t.least + 2 ^ t.width ≤ 2 ^ t'.width) {previous : CInt t'} :
    CarriesInt flag previous (assignInt flag t' previous)
      ↔ ∀ v, flag = some v → 0 ≤ v.val := by
  rw [carries_assignInt_default_iff_nonneg ht' h]
  exact and_iff_left fun _ ↦ rfl

/-- A field behind a switch holds the value of its flag and takes a named case: the value it gets is
one of the cases, which its type has. -/
theorem carries_named_iff {cases : List ℤ} (hcases : ∀ n ∈ cases, t'.InRange n)
    {previous : CInt t'} :
    (CarriesInt flag previous (assignInt flag t' previous)
        ∧ (assignInt flag t' previous).val ∈ cases)
      ↔ (∀ v, flag = some v → v.val ∈ cases) ∧ (flag = none → previous.val ∈ cases) := by
  rw [carries_assignInt_iff]
  constructor
  · rintro ⟨hrange, hmem⟩
    refine ⟨fun v hv ↦ ?_, fun hnone ↦ ?_⟩
    · rw [hv] at hmem
      rwa [← CInt.val_convert_eq_iff.mpr (hrange v hv)]
    · rwa [hnone] at hmem
  · rintro ⟨hgiven, habsent⟩
    refine ⟨fun v hv ↦ hcases _ (hgiven v hv), ?_⟩
    cases hflag : flag with
    | none => exact habsent hflag
    | some v =>
      have hmem := hgiven v hflag
      rwa [← CInt.val_convert_eq_iff.mpr (hcases _ hmem)] at hmem

end

/-! ## All fields -/

/-- The environment with the fields that have a flag, or are derived from the size ratio, as they
were before. -/
def DBEnv.restored (env' env : DBEnv) : DBEnv :=
  { env' with
    destroyDatabase := env.destroyDatabase
    clearSystemCache := env.clearSystemCache
    sizeRatio := env.sizeRatio
    level0SlowdownWritesTrigger := env.level0SlowdownWritesTrigger
    level0StopWritesTrigger := env.level0StopWritesTrigger
    level0FileNumCompactionTrigger := env.level0FileNumCompactionTrigger
    bufferSizeInPages := env.bufferSizeInPages
    entriesPerPage := env.entriesPerPage
    entrySize := env.entrySize
    verbosity := env.verbosity
    isPerOpTimer := env.isPerOpTimer
    isTotalTimer := env.isTotalTimer
    bufferSize := env.bufferSize
    fileToMemtableSizeRatio := env.fileToMemtableSizeRatio
    compactionPri := env.compactionPri
    compactionStyle := env.compactionStyle
    bitsPerKey := env.bitsPerKey
    blockCache := env.blockCache
    perfStats := env.perfStats
    iostatStats := env.iostatStats
    rocksdbStats := env.rocksdbStats
    showProgressBar := env.showProgressBar
    lowPri := env.lowPri }

/-- The fields of type `bool` keep their value without their flag. -/
structure KeepsSwitches (flags : Flags) (env env' : DBEnv) : Prop where
  destroyDatabase : flags.destroyDatabase = none → env'.destroyDatabase = env.destroyDatabase
  clearSystemCache : flags.clearSystemCache = none → env'.clearSystemCache = env.clearSystemCache
  isPerOpTimer : flags.enablePerOpTime = none → env'.isPerOpTimer = env.isPerOpTimer
  isTotalTimer : flags.enableTotalTime = none → env'.isTotalTimer = env.isTotalTimer
  perfStats : flags.enablePerf = none → env'.perfStats = env.perfStats
  iostatStats : flags.enableIostat = none → env'.iostatStats = env.iostatStats
  rocksdbStats : flags.enableRocksdbStats = none → env'.rocksdbStats = env.rocksdbStats
  showProgressBar : flags.showProgress = none → env'.showProgressBar = env.showProgressBar
  lowPri : flags.lowPri = none → env'.lowPri = env.lowPri

/-- The environment says what the flags say. -/
structure Valid (flags : Flags) (env env' : DBEnv) : Prop where
  sizeRatio : Carries id flags.sizeRatio env.sizeRatio env'.sizeRatio
  bufferSizeInPages :
    CarriesInt flags.bufferSizeInPages env.bufferSizeInPages env'.bufferSizeInPages
  entriesPerPage : CarriesInt flags.entriesPerPage env.entriesPerPage env'.entriesPerPage
  entrySize : CarriesInt flags.entrySize env.entrySize env'.entrySize
  verbosity : CarriesInt flags.verbosity env.verbosity env'.verbosity
  bufferSize : CarriesInt flags.bufferSize env.bufferSize env'.bufferSize
  fileToMemtableSizeRatio : CarriesInt flags.fileToMemtableSizeRatio
    env.fileToMemtableSizeRatio env'.fileToMemtableSizeRatio
  compactionPri : CarriesInt flags.compactionPri env.compactionPri env'.compactionPri
  compactionStyle : CarriesInt flags.compactionStyle env.compactionStyle env'.compactionStyle
  bitsPerKey : Carries id flags.bitsPerKey env.bitsPerKey env'.bitsPerKey
  blockCache : CarriesInt flags.blockCache env.blockCache env'.blockCache
  switches : KeepsSwitches flags env env'
  /-- Fields without a flag are unchanged. -/
  others : env'.restored env = env
  /-- The two switches take a named case. -/
  compactionPri_named (previous : CompactionPri) : (env'.compactionPriSwitch previous).2 = []
  compactionStyle_named (previous : CompactionStyle) : (env'.compactionStyleSwitch previous).2 = []

/-- What the flags have to be. -/
structure Acceptable (flags : Flags) (env : DBEnv) : Prop where
  bufferSizeInPages (v : CInt .int) : flags.bufferSizeInPages = some v → 0 ≤ v.val
  entriesPerPage (v : CInt .int) : flags.entriesPerPage = some v → 0 ≤ v.val
  entrySize (v : CInt .int) : flags.entrySize = some v → 0 ≤ v.val
  fileToMemtableSizeRatio (v : CInt .int) : flags.fileToMemtableSizeRatio = some v → 0 ≤ v.val
  bufferSize (v : CInt .long) : flags.bufferSize = some v → 0 ≤ v.val
  /-- The buffer size can only be left out if it was not set before. -/
  bufferSize_absent : flags.bufferSize = none → env.bufferSize = 0
  compactionPri (v : CInt .int) : flags.compactionPri = some v → v.val ∈ [1, 2, 3, 4, 5]
  compactionPri_absent : flags.compactionPri = none → env.compactionPri.val ∈ [1, 2, 3, 4, 5]
  compactionStyle (v : CInt .int) : flags.compactionStyle = some v → v.val ∈ [1, 2, 3, 4]
  compactionStyle_absent : flags.compactionStyle = none → env.compactionStyle.val ∈ [1, 2, 3, 4]

theorem keepsSwitches_withFlags (flags : Flags) (env : DBEnv)
    (slowdown stop trigger : CInt .int) :
    KeepsSwitches flags env (env.withFlags flags slowdown stop trigger) where
  destroyDatabase h := assignBool_of_none h _
  clearSystemCache h := assignBool_of_none h _
  isPerOpTimer h := assignBool_of_none h _
  isTotalTimer h := assignBool_of_none h _
  perfStats h := assignBool_of_none h _
  iostatStats h := assignBool_of_none h _
  rocksdbStats h := assignBool_of_none h _
  showProgressBar h := assignBool_of_none h _
  lowPri h := assignBool_of_none h _

/-- **When an accepted command line gives a valid environment**: no value of an unsigned field is
negative, the compaction priority and style are named cases, and the buffer size in bytes is given
or was not set before. -/
theorem valid_iff {fp : DoubleArith} {line : CommandLine} {env env' : DBEnv}
    (h : parseArguments fp line env = some (.returned 0 env')) :
    ∃ flags, line = .flags flags ∧ (Valid flags env env' ↔ Acceptable flags env) := by
  obtain ⟨flags, slowdown, stop, trigger, rfl, rfl⟩ := exists_withFlags_of_parseArguments h
  have hunsigned {flag : Option (CInt .int)} {previous : CInt .unsignedInt} :
      CarriesInt flag previous (assignInt flag .unsignedInt previous)
        ↔ ∀ v, flag = some v → 0 ≤ v.val := carries_assignInt_iff_nonneg rfl (by decide)
  have hbuffer : CarriesInt flags.bufferSize env.bufferSize (assignInt flags.bufferSize .sizeT 0)
      ↔ (∀ v, flags.bufferSize = some v → 0 ≤ v.val)
        ∧ (flags.bufferSize = none → 0 = env.bufferSize) :=
    carries_assignInt_default_iff_nonneg rfl (by decide)
  have hpri : (∀ n ∈ [1, 2, 3, 4, 5], IntType.uint16.InRange n) := by decide
  have hstyle : (∀ n ∈ [1, 2, 3, 4], IntType.uint64.InRange n) := by decide
  refine ⟨flags, rfl, fun hvalid ↦ ?_, fun hacceptable ↦ ?_⟩
  · have hprinamed := errors_switchOn_eq_nil_iff.mp (hvalid.compactionPri_named .roundRobin)
    have hstylenamed := errors_switchOn_eq_nil_iff.mp (hvalid.compactionStyle_named .none)
    have hbufferSize := hbuffer.mp hvalid.bufferSize
    have hpriority := (carries_named_iff hpri).mp ⟨hvalid.compactionPri, hprinamed⟩
    have hstyles := (carries_named_iff hstyle).mp ⟨hvalid.compactionStyle, hstylenamed⟩
    exact {
      bufferSizeInPages := hunsigned.mp hvalid.bufferSizeInPages
      entriesPerPage := hunsigned.mp hvalid.entriesPerPage
      entrySize := hunsigned.mp hvalid.entrySize
      fileToMemtableSizeRatio := hunsigned.mp hvalid.fileToMemtableSizeRatio
      bufferSize := hbufferSize.1
      bufferSize_absent := fun hnone ↦ (hbufferSize.2 hnone).symm
      compactionPri := hpriority.1
      compactionPri_absent := hpriority.2
      compactionStyle := hstyles.1
      compactionStyle_absent := hstyles.2 }
  · obtain ⟨hpriority, hprinamed⟩ := (carries_named_iff hpri).mpr
      ⟨hacceptable.compactionPri, hacceptable.compactionPri_absent⟩
    obtain ⟨hstyles, hstylenamed⟩ := (carries_named_iff hstyle).mpr
      ⟨hacceptable.compactionStyle, hacceptable.compactionStyle_absent⟩
    exact {
      sizeRatio := carries_assignDouble
      bufferSizeInPages := hunsigned.mpr hacceptable.bufferSizeInPages
      entriesPerPage := hunsigned.mpr hacceptable.entriesPerPage
      entrySize := hunsigned.mpr hacceptable.entrySize
      verbosity := carries_assignInt_self
      bufferSize := hbuffer.mpr
        ⟨hacceptable.bufferSize, fun hnone ↦ (hacceptable.bufferSize_absent hnone).symm⟩
      fileToMemtableSizeRatio := hunsigned.mpr hacceptable.fileToMemtableSizeRatio
      compactionPri := hpriority
      compactionStyle := hstyles
      bitsPerKey := carries_assignDouble
      blockCache := carries_assignInt_self
      switches := keepsSwitches_withFlags flags env slowdown stop trigger
      others := rfl
      compactionPri_named := fun _ ↦ errors_switchOn_eq_nil_iff.mpr hprinamed
      compactionStyle_named := fun _ ↦ errors_switchOn_eq_nil_iff.mpr hstylenamed }

/-- A number of pages and a compaction priority. -/
theorem valid_small :
    let flags : Flags := { bufferSizeInPages := some 512, compactionPri := some 2 }
    Valid flags {} (DBEnv.withFlags {} flags 3 4 4) := by
  intro flags
  obtain ⟨flags', hline, hiff⟩ := valid_iff (parseArguments_default flags rfl)
  obtain rfl := CommandLine.flags.inj hline
  apply hiff.mpr
  exact {
    bufferSizeInPages := by rintro v ⟨⟩; decide
    entriesPerPage := by rintro v ⟨⟩
    entrySize := by rintro v ⟨⟩
    fileToMemtableSizeRatio := by rintro v ⟨⟩
    bufferSize := by rintro v ⟨⟩
    bufferSize_absent := fun _ ↦ rfl
    compactionPri := by rintro v ⟨⟩; decide
    compactionPri_absent := by rintro ⟨⟩
    compactionStyle := by rintro v ⟨⟩
    compactionStyle_absent := fun _ ↦ by decide }

/-- A number of pages of -1, which becomes 4294967295; and compaction priority 9, for which the
option is left as it was. -/
theorem not_valid_small :
    let pages : Flags := { bufferSizeInPages := some (.ofInt .int (-1)) }
    let priority : Flags := { compactionPri := some 9 }
    parseArguments .exact (.flags pages) {}
        = some (.returned 0 (DBEnv.withFlags {} pages 3 4 4))
      ∧ ¬Valid pages {} (DBEnv.withFlags {} pages 3 4 4)
      ∧ parseArguments .exact (.flags priority) {}
        = some (.returned 0 (DBEnv.withFlags {} priority 3 4 4))
      ∧ ¬Valid priority {} (DBEnv.withFlags {} priority 3 4 4) := by
  intro pages priority
  refine ⟨parseArguments_default pages rfl, fun h ↦ ?_, parseArguments_default priority rfl,
    fun h ↦ ?_⟩
  · exact absurd (h.bufferSizeInPages.given _ rfl) (by decide +kernel)
  · exact absurd (h.compactionPri_named .roundRobin) (by decide +kernel)

end WorkloadAwareCompaction
