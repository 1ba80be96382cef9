import WorkloadAwareCompaction.Library.MachineInt

/-!
# The environment

`DBEnv` holds what the command line and the defaults decide about an experiment. Its fields have the
integer types of the source; a `double` is a rational number, as every finite one is.

The sizes are not stored but computed. The block size and the buffer size, unless it was given in
bytes, are products formed in `unsigned int`, the type of their factors, and only then converted to
the 64-bit types of the getters. The sizes derived from the buffer size go through `long`, and are
equal to it all the same.
-/

namespace WorkloadAwareCompaction

open MachineInt

/-- The environment and its defaults. -/
structure DBEnv where
  /-- In bytes; 0 if it is to be computed. -/
  bufferSize : CInt .sizeT := 0
  rocksdbStats : Bool := false
  perfStats : Bool := false
  iostatStats : Bool := false
  destroyDatabase : Bool := true
  showProgressBar : Bool := false
  isPerOpTimer : Bool := false
  isTotalTimer : Bool := false
  createIfMissing : Bool := true
  clearSystemCache : Bool := true
  maxOpenFiles : CInt .int := 1000
  maxFileOpeningThreads : CInt .int := 1000
  bytesPerSync : CInt .int := 0
  enableThreadTracking : Bool := false
  allowConcurrentMemtableWrite : Bool := false
  statsHistoryBufferSize : CInt .sizeT := 1048576
  dumpMallocStats : Bool := false
  avoidFlushDuringShutdown : Bool := false
  adviseRandomOnOpen : Bool := true
  deleteObsoleteFilesPeriodMicros : CInt .uint64 := 21600000000
  allowMmapReads : Bool := false
  allowMmapWrites : Bool := false
  verbosity : CInt .int := 0
  /-- `E`. -/
  entrySize : CInt .unsignedInt := 64
  /-- `B`. -/
  entriesPerPage : CInt .unsignedInt := 64
  /-- `P`. -/
  bufferSizeInPages : CInt .unsignedInt := 128
  /-- `T`. -/
  sizeRatio : ℚ := 4
  /-- `f`. -/
  fileToMemtableSizeRatio : CInt .unsignedInt := 1
  maxWriteBufferNumber : CInt .int := 2
  bitsPerKey : ℚ := 10
  compactionPri : CInt .uint16 := 1
  memtableFactory : CInt .uint16 := 1
  levelCompactionDynamicLevelBytes : Bool := false
  compactionStyle : CInt .uint64 := 1
  disableAutoCompactions : Bool := false
  level0FileNumCompactionTrigger : CInt .int := 4
  numLevels : CInt .int := 10
  targetFileSizeMultiplier : CInt .int := 1
  maxBackgroundJobs : CInt .int := 1
  softPendingCompactionBytesLimit : CInt .int := 0
  hardPendingCompactionBytesLimit : CInt .int := 0
  periodicCompactionSeconds : CInt .uint64 := 0
  useDirectIoForFlushAndCompaction : Bool := true
  useDirectReads : Bool := true
  noBlockCache : Bool := false
  /-- In MB; 0 for no cache. -/
  blockCache : CInt .int := 0
  blockCacheHighPriorityRatio : ℚ := 1 / 2
  cacheIndexAndFilterBlocks : Bool := true
  readAmpBytesPerBit : CInt .int := 0
  dataBlockIndexType : CInt .uint16 := 1
  indexType : CInt .uint16 := 1
  partitionFilters : Bool := false
  metadataBlockSize : CInt .uint64 := 4096
  pinTopLevelIndexAndFilter : Bool := false
  indexShortening : CInt .uint16 := 1
  blockSizeDeviation : CInt .int := 0
  enableIndexCompression : Bool := false
  compression : CInt .uint16 := 1
  verifyChecksums : Bool := true
  fillCache : Bool := false
  ignoreRangeDeletions : Bool := false
  readTier : CInt .uint16 := 1
  lowPri : Bool := true
  sync : Bool := false
  disableWAL : Bool := true
  noSlowdown : Bool := false
  ignoreMissingColumnFamilies : Bool := false
  comparator : CInt .uint16 := 1
  maxSequentialSkipInIterations : CInt .uint64 := 8
  memtablePrefixBloomSizeRatio : ℚ := 0
  level0SlowdownWritesTrigger : CInt .int := 3
  level0StopWritesTrigger : CInt .int := 4
  paranoidFileChecks : Bool := false
  optimizeFiltersForHits : Bool := false
  inplaceUpdateSupport : Bool := false
  inplaceUpdateNumLocks : CInt .sizeT := 10000
  reportBgIoStats : Bool := true
  wait : Bool := true
  allowWriteStall : Bool := true

namespace DBEnv

variable (env : DBEnv)

/-! ## The computed sizes -/

/-- `entries_per_page * entry_size`, as an `unsigned int`. -/
def getBlockSize : CInt .uint64 := (env.entriesPerPage.wrappingMul env.entrySize).convert .uint64

/-- The size given, or the product of pages, entries and entry size as an `unsigned int`. -/
def getBufferSize : CInt .sizeT :=
  if env.bufferSize ≠ 0 then env.bufferSize
  else ((env.bufferSizeInPages.wrappingMul env.entriesPerPage).wrappingMul env.entrySize).convert
    .sizeT

def getTargetFileSizeBase : CInt .long := env.getBufferSize.convert .long

def getMaxBytesForLevelBase : CInt .uint64 := env.getTargetFileSizeBase.convert .uint64

theorem val_getBlockSize :
    env.getBlockSize.val = IntType.unsignedInt.wrap (env.entriesPerPage.val * env.entrySize.val) :=
  CInt.val_convert_of_widens (by decide) _

variable {env} in
theorem val_getBufferSize (h : env.bufferSize = 0) : env.getBufferSize.val
    = IntType.unsignedInt.wrap
      (env.bufferSizeInPages.val * env.entriesPerPage.val * env.entrySize.val) := by
  rw [getBufferSize, if_neg (not_not.mpr h), CInt.val_convert_of_widens (by decide),
    CInt.val_wrappingMul_wrappingMul]

/-- The way through `long` ends where it began. -/
theorem val_getMaxBytesForLevelBase :
    env.getMaxBytesForLevelBase.val = env.getBufferSize.val := by
  rw [getMaxBytesForLevelBase, getTargetFileSizeBase, CInt.convert_convert (le_refl 64)]
  exact CInt.val_convert_of_widens (by decide) _

end DBEnv

end WorkloadAwareCompaction
