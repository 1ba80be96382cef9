import WorkloadAwareCompaction.Setup.Environment
import WorkloadAwareCompaction.Tree.Metadata

/-!
# The command line

`parse_arguments` fills the environment from the flags. The args library is assumed to deliver the
value of every flag that was given, an `int` or a `long`; the fields have other types, and the
conversions between them are implicit. A field whose flag is absent is assigned its own value, with
one exception: the buffer size in bytes, which is assigned 0.

The flag for the size of a file is declared, and its value is never read.
-/

namespace WorkloadAwareCompaction

open MachineInt

/-- The values of the flags that were given. -/
structure Flags where
  /-- `-d`. -/
  destroyDatabase : Option (CInt .int) := none
  /-- `--cc`. -/
  clearSystemCache : Option (CInt .int) := none
  /-- `-T`. -/
  sizeRatio : Option (CInt .int) := none
  /-- `-P`. -/
  bufferSizeInPages : Option (CInt .int) := none
  /-- `-B`. -/
  entriesPerPage : Option (CInt .int) := none
  /-- `-E`. -/
  entrySize : Option (CInt .int) := none
  /-- `-M`. -/
  bufferSize : Option (CInt .long) := none
  /-- `-f`. -/
  fileToMemtableSizeRatio : Option (CInt .int) := none
  /-- `-F`. -/
  fileSize : Option (CInt .long) := none
  /-- `-c`. -/
  compactionPri : Option (CInt .int) := none
  /-- `-C`. -/
  compactionStyle : Option (CInt .int) := none
  /-- `-b`. -/
  bitsPerKey : Option (CInt .int) := none
  /-- `--bb`. -/
  blockCache : Option (CInt .int) := none
  /-- `--perf`. -/
  enablePerf : Option (CInt .int) := none
  /-- `--iostat`. -/
  enableIostat : Option (CInt .int) := none
  /-- `--stat`. -/
  enableRocksdbStats : Option (CInt .int) := none
  /-- `--progress`. -/
  showProgress : Option (CInt .int) := none
  /-- `-V`. -/
  verbosity : Option (CInt .int) := none
  /-- `--peroptime`. -/
  enablePerOpTime : Option (CInt .int) := none
  /-- `--totaltime`. -/
  enableTotalTime : Option (CInt .int) := none
  /-- `--lowpri`. -/
  lowPri : Option (CInt .int) := none

/-- What the args library makes of a command line. -/
inductive CommandLine
  | help
  /-- `ParseError` or `ValidationError`. -/
  | error
  | flags (flags : Flags)

inductive ParseResult
  /-- `exit(0)`. -/
  | exit
  | returned (code : CInt .int) (env : DBEnv)

/-! ## Assignments -/

section

variable {t : IntType} (flag : Option (CInt t))

/-- `flag ? args::get(flag) : previous` for an integer field. -/
def assignInt (t' : IntType) (previous : CInt t') : CInt t' := flag.elim previous (·.convert t')

/-- The same for a field of type `double`. -/
def assignDouble (previous : ℚ) : ℚ := flag.elim previous (·.val)

/-- The same for a field of type `bool`. -/
def assignBool (previous : Bool) : Bool := flag.elim previous (·.val ≠ 0)

end

/-- The environment after all assignments, given the values of the three fields that are derived
from the size ratio. -/
def DBEnv.withFlags (env : DBEnv) (flags : Flags) (slowdown stop trigger : CInt .int) : DBEnv :=
  { env with
    destroyDatabase := assignBool flags.destroyDatabase env.destroyDatabase
    clearSystemCache := assignBool flags.clearSystemCache env.clearSystemCache
    sizeRatio := assignDouble flags.sizeRatio env.sizeRatio
    level0SlowdownWritesTrigger := slowdown
    level0StopWritesTrigger := stop
    level0FileNumCompactionTrigger := trigger
    bufferSizeInPages := assignInt flags.bufferSizeInPages .unsignedInt env.bufferSizeInPages
    entriesPerPage := assignInt flags.entriesPerPage .unsignedInt env.entriesPerPage
    entrySize := assignInt flags.entrySize .unsignedInt env.entrySize
    verbosity := assignInt flags.verbosity .int env.verbosity
    isPerOpTimer := assignBool flags.enablePerOpTime env.isPerOpTimer
    isTotalTimer := assignBool flags.enableTotalTime env.isTotalTimer
    -- 0 where the others have the previous value
    bufferSize := assignInt flags.bufferSize .sizeT 0
    fileToMemtableSizeRatio :=
      assignInt flags.fileToMemtableSizeRatio .unsignedInt env.fileToMemtableSizeRatio
    compactionPri := assignInt flags.compactionPri .uint16 env.compactionPri
    compactionStyle := assignInt flags.compactionStyle .uint64 env.compactionStyle
    bitsPerKey := assignDouble flags.bitsPerKey env.bitsPerKey
    blockCache := assignInt flags.blockCache .int env.blockCache
    perfStats := assignBool flags.enablePerf env.perfStats
    iostatStats := assignBool flags.enableIostat env.iostatStats
    rocksdbStats := assignBool flags.enableRocksdbStats env.rocksdbStats
    showProgressBar := assignBool flags.showProgress env.showProgressBar
    lowPri := assignBool flags.lowPri env.lowPri }

/-- The assignments. The three level-0 triggers are the size ratio as an `int`, one of them after
subtracting 1 in `double`; a size ratio out of range makes this undefined. -/
def assignFlags (fp : DoubleArith) (flags : Flags) (env : DBEnv) : Option DBEnv := do
  let sizeRatio := assignDouble flags.sizeRatio env.sizeRatio
  let slowdown ← CInt.ofRat .int (fp.round (sizeRatio - 1))
  let stop ← CInt.ofRat .int sizeRatio
  let trigger ← CInt.ofRat .int sizeRatio
  some (env.withFlags flags slowdown stop trigger)

/-- `parse_arguments`; `none` where its behaviour is undefined. -/
def parseArguments (fp : DoubleArith) (line : CommandLine) (env : DBEnv) : Option ParseResult :=
  match line with
  | .help => some .exit
  | .error => some (.returned 1 env)
  | .flags flags => (assignFlags fp flags env).map (.returned 0)

/-! ## Accepted command lines -/

/-- Flags are accepted if the size ratio can be converted. -/
theorem parseArguments_eq_some {fp : DoubleArith} {flags : Flags} {env : DBEnv}
    {slowdown stop : CInt .int}
    (hslowdown :
      CInt.ofRat .int (fp.round (assignDouble flags.sizeRatio env.sizeRatio - 1)) = some slowdown)
    (hstop : CInt.ofRat .int (assignDouble flags.sizeRatio env.sizeRatio) = some stop) :
    parseArguments fp (.flags flags) env
      = some (.returned 0 (env.withFlags flags slowdown stop stop)) := by
  have hassign : assignFlags fp flags env = some (env.withFlags flags slowdown stop stop) := by
    refine Option.bind_eq_some_iff.mpr ⟨slowdown, hslowdown, ?_⟩
    refine Option.bind_eq_some_iff.mpr ⟨stop, hstop, ?_⟩
    exact Option.bind_eq_some_iff.mpr ⟨stop, hstop, rfl⟩
  rw [parseArguments, hassign]
  rfl

/-- The default environment accepts flags without a size ratio. -/
theorem parseArguments_default (flags : Flags) (h : flags.sizeRatio = none) :
    parseArguments .exact (.flags flags) {}
      = some (.returned 0 (DBEnv.withFlags {} flags 3 4 4)) := by
  apply parseArguments_eq_some
  · rw [h]
    exact show CInt.ofRat .int ((4 : ℚ) - 1) = some 3 by decide +kernel
  · rw [h]
    exact show CInt.ofRat .int (4 : ℚ) = some 4 by decide +kernel

/-- **What an accepted command line does**: it holds flags, and these are assigned. -/
theorem exists_withFlags_of_parseArguments {fp : DoubleArith} {line : CommandLine}
    {env env' : DBEnv} (h : parseArguments fp line env = some (.returned 0 env')) :
    ∃ flags slowdown stop trigger,
      line = .flags flags ∧ env' = env.withFlags flags slowdown stop trigger := by
  cases line with
  | help => exact absurd (Option.some.inj h) (by simp)
  | error =>
    obtain ⟨hcode, -⟩ := ParseResult.returned.inj (Option.some.inj h)
    exact absurd hcode (by decide)
  | flags flags =>
    obtain ⟨env₁, hassign, henv⟩ := Option.map_eq_some_iff.mp h
    obtain ⟨-, rfl⟩ := ParseResult.returned.inj henv
    obtain ⟨slowdown, -, hassign⟩ := Option.bind_eq_some_iff.mp hassign
    obtain ⟨stop, -, hassign⟩ := Option.bind_eq_some_iff.mp hassign
    obtain ⟨trigger, -, hassign⟩ := Option.bind_eq_some_iff.mp hassign
    exact ⟨flags, slowdown, stop, trigger, rfl, (Option.some.inj hassign).symm⟩

end WorkloadAwareCompaction
