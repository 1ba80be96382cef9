import WorkloadAwareCompaction.Setup.Environment
import WorkloadAwareCompaction.Tree.Metadata

/-!
# The options of the store

`configOptions` turns the environment into the options of the store. It copies most fields, some of
them with an implicit conversion, computes a few, and has nine switches over fields that stand for a
named value. The default branch of a switch prints an error and leaves the option as it was.

The options it starts from are arguments. One thing makes it undefined: the capacity of the block
cache is computed in `int`.
-/

namespace WorkloadAwareCompaction

open MachineInt

/-! ## Named values -/

/-- `rocksdb::CompactionPri`. -/
inductive CompactionPri
  | minOverlappingRatio
  | byCompensatedSize
  | oldestLargestSeqFirst
  | oldestSmallestSeqFirst
  | roundRobin
  deriving DecidableEq

/-- The factories of memtables. -/
inductive MemtableFactory
  | skipList
  | vectorRep
  | hashSkipListRep
  | hashLinkListRep
  deriving DecidableEq

/-- `rocksdb::CompactionStyle`. -/
inductive CompactionStyle
  | level
  | universal
  | fifo
  | none
  deriving DecidableEq

inductive DataBlockIndexType
  | binarySearch
  | binaryAndHash
  deriving DecidableEq

inductive IndexType
  | binarySearch
  | hashSearch
  | twoLevelIndexSearch
  | binarySearchWithFirstKey
  deriving DecidableEq

inductive IndexShorteningMode
  | noShortening
  | shortenSeparators
  | shortenSeparatorsAndSuccessor
  deriving DecidableEq

/-- `rocksdb::ReadTier`. -/
inductive ReadTier
  | readAllTier
  | blockCacheTier
  | persistedTier
  | memtableTier
  deriving DecidableEq

/-- The order of the keys. -/
inductive Comparator
  | bytewise
  | reverseBytewise
  deriving DecidableEq

inductive StatsLevel
  | all
  | disableAll
  deriving DecidableEq

inductive PerfLevel
  | disable
  | enableCount
  | enableTimeAndCPUTimeExceptForMutex
  deriving DecidableEq

/-! ## Options -/

/-- `NewBloomFilterPolicy`. -/
structure BloomFilterPolicy where
  bitsPerKey : ℚ
  useBlockBasedBuilder : Bool

/-- `NewLRUCache`. -/
structure LRUCache where
  capacity : CInt .sizeT
  numShardBits : CInt .int
  strictCapacityLimit : Bool
  highPriPoolRatio : ℚ

/-- `rocksdb::BlockBasedTableOptions`, as far as it is set. -/
structure TableOptions where
  filterPolicy : Option BloomFilterPolicy
  noBlockCache : Bool
  blockCache : Option LRUCache
  cacheIndexAndFilterBlocks : Bool
  readAmpBytesPerBit : CInt .uint32
  dataBlockIndexType : DataBlockIndexType
  indexType : IndexType
  partitionFilters : Bool
  blockSize : CInt .uint64
  metadataBlockSize : CInt .uint64
  pinTopLevelIndexAndFilter : Bool
  indexShortening : IndexShorteningMode
  blockSizeDeviation : CInt .int
  enableIndexCompression : Bool

/-- `rocksdb::Options`, as far as it is set. -/
structure StoreOptions where
  createIfMissing : Bool
  maxOpenFiles : CInt .int
  maxFileOpeningThreads : CInt .int
  bytesPerSync : CInt .uint64
  enableThreadTracking : Bool
  allowConcurrentMemtableWrite : Bool
  statsHistoryBufferSize : CInt .sizeT
  dumpMallocStats : Bool
  avoidFlushDuringShutdown : Bool
  adviseRandomOnOpen : Bool
  deleteObsoleteFilesPeriodMicros : CInt .uint64
  allowMmapReads : Bool
  allowMmapWrites : Bool
  maxBytesForLevelMultiplier : ℚ
  writeBufferSize : CInt .sizeT
  targetFileSizeBase : CInt .uint64
  maxBytesForLevelBase : CInt .uint64
  maxWriteBufferNumber : CInt .int
  compactionPri : CompactionPri
  memtableFactory : MemtableFactory
  levelCompactionDynamicLevelBytes : Bool
  compactionStyle : CompactionStyle
  disableAutoCompactions : Bool
  level0FileNumCompactionTrigger : CInt .int
  numLevels : CInt .int
  targetFileSizeMultiplier : CInt .int
  maxBackgroundJobs : CInt .int
  softPendingCompactionBytesLimit : CInt .uint64
  hardPendingCompactionBytesLimit : CInt .uint64
  periodicCompactionSeconds : CInt .uint64
  useDirectIoForFlushAndCompaction : Bool
  useDirectReads : Bool
  tableFactory : Option TableOptions
  compression : CompressionType
  comparator : Comparator
  maxSequentialSkipInIterations : CInt .uint64
  memtablePrefixBloomSizeRatio : ℚ
  level0SlowdownWritesTrigger : CInt .int
  level0StopWritesTrigger : CInt .int
  paranoidFileChecks : Bool
  optimizeFiltersForHits : Bool
  inplaceUpdateSupport : Bool
  inplaceUpdateNumLocks : CInt .sizeT
  reportBgIoStats : Bool
  arenaBlockSize : CInt .sizeT
  statisticsLevel : StatsLevel

/-- `rocksdb::ReadOptions`, as far as it is set. -/
structure ReadOptions where
  verifyChecksums : Bool
  fillCache : Bool
  ignoreRangeDeletions : Bool
  readTier : ReadTier

/-- `rocksdb::WriteOptions`, as far as it is set. -/
structure WriteOptions where
  lowPri : Bool
  sync : Bool
  disableWAL : Bool
  noSlowdown : Bool
  ignoreMissingColumnFamilies : Bool

/-- `rocksdb::FlushOptions`. -/
structure FlushOptions where
  wait : Bool
  allowWriteStall : Bool

/-- A call that changes what the process measures. -/
inductive PerfCall
  | setPerfLevel (level : PerfLevel)
  | resetPerfContext
  | clearPerLevelPerfContext
  | enablePerLevelPerfContext
  | disablePerLevelPerfContext
  | resetIOStats
  | disableIOStats
  deriving DecidableEq

/-! ## Switches -/

/-- A switch that assigns a named value: the new value of the option, and the error printed. -/
def switchOn {α : Type} {t : IntType} (error : String) (cases : List (ℤ × α)) (selector : CInt t)
    (previous : α) : α × List String :=
  match cases.lookup selector.val with
  | some value => (value, [])
  | none => (previous, [error])

/-- A switch takes one of its named cases when its selector is one of them. -/
theorem errors_switchOn_eq_nil_iff {α : Type} {t : IntType} {error : String}
    {cases : List (ℤ × α)} {selector : CInt t} {previous : α} :
    (switchOn error cases selector previous).2 = [] ↔ selector.val ∈ cases.map (·.1) := by
  rw [switchOn]
  split
  · rename_i value hvalue
    obtain ⟨before, after, hcases, -⟩ := List.lookup_eq_some_iff.mp hvalue
    refine iff_of_true rfl ?_
    rw [hcases, List.map_append, List.map_cons]
    exact List.mem_append_right _ List.mem_cons_self
  · rename_i hnone
    refine iff_of_false (List.cons_ne_nil _ _) fun hmem ↦ ?_
    obtain ⟨named, hnamed, heq⟩ := List.mem_map.mp hmem
    exact bne_iff_ne.mp (List.lookup_eq_none_iff.mp hnone named hnamed) heq.symm

namespace DBEnv

variable (env : DBEnv)

def compactionPriSwitch : CompactionPri → CompactionPri × List String :=
  switchOn "Invalid data movement policy!"
    [(1, .minOverlappingRatio), (2, .byCompensatedSize), (3, .oldestLargestSeqFirst),
      (4, .oldestSmallestSeqFirst), (5, .roundRobin)] env.compactionPri

def memtableFactorySwitch : MemtableFactory → MemtableFactory × List String :=
  switchOn "Invalid memtable factory!"
    [(1, .skipList), (2, .vectorRep), (3, .hashSkipListRep), (4, .hashLinkListRep)]
    env.memtableFactory

def compactionStyleSwitch : CompactionStyle → CompactionStyle × List String :=
  switchOn "Invalid compaction eagerness!"
    [(1, .level), (2, .universal), (3, .fifo), (4, .none)] env.compactionStyle

def dataBlockIndexTypeSwitch : DataBlockIndexType → DataBlockIndexType × List String :=
  switchOn "Invalid index type for data block!" [(1, .binarySearch), (2, .binaryAndHash)]
    env.dataBlockIndexType

def indexTypeSwitch : IndexType → IndexType × List String :=
  switchOn "Invalid index type!"
    [(1, .binarySearch), (2, .hashSearch), (3, .twoLevelIndexSearch),
      (4, .binarySearchWithFirstKey)] env.indexType

def indexShorteningSwitch : IndexShorteningMode → IndexShorteningMode × List String :=
  switchOn "Invalid index shortening!"
    [(1, .noShortening), (2, .shortenSeparators), (3, .shortenSeparatorsAndSuccessor)]
    env.indexShortening

/-- The case 9 is commented out in the source. -/
def compressionSwitch : CompressionType → CompressionType × List String :=
  switchOn "Invalid compression type!"
    [(1, .noCompression), (2, .snappyCompression), (3, .zlibCompression), (4, .bZip2Compression),
      (5, .lz4Compression), (6, .lz4HCCompression), (7, .xpressCompression), (8, .zstd),
      (10, .disableCompressionOption)] env.compression

def readTierSwitch : ReadTier → ReadTier × List String :=
  switchOn "Invalid read tier!"
    [(1, .readAllTier), (2, .blockCacheTier), (3, .persistedTier), (4, .memtableTier)] env.readTier

def comparatorSwitch : Comparator → Comparator × List String :=
  switchOn "Invalid comparator!" [(1, .bytewise), (2, .reverseBytewise)] env.comparator

/-! ## The options built from the environment -/

/-- `env->block_cache * 1024 * 1024`, in `int`, as the capacity of a cache. -/
def blockCacheCapacity : Option (CInt .sizeT) := do
  let kilobytes ← CInt.checked .int (env.blockCache.val * 1024)
  let bytes ← CInt.checked .int (kilobytes.val * 1024)
  some (bytes.convert .sizeT)

/-- The block cache; `none` where its capacity is undefined. -/
def configBlockCache (table : TableOptions) : Option TableOptions :=
  if env.blockCache = 0 then
    some { table with noBlockCache := true, cacheIndexAndFilterBlocks := false }
  else do
    let capacity ← env.blockCacheCapacity
    some { table with
      noBlockCache := false
      blockCache := some ⟨capacity, .ofInt .int (-1), false, env.blockCacheHighPriorityRatio⟩
      cacheIndexAndFilterBlocks := env.cacheIndexAndFilterBlocks }

/-- The other table options. -/
def configTable (table : TableOptions) : TableOptions :=
  { table with
    filterPolicy := if env.bitsPerKey = 0 then table.filterPolicy else some ⟨env.bitsPerKey, false⟩
    readAmpBytesPerBit := env.readAmpBytesPerBit.convert .uint32
    dataBlockIndexType := (env.dataBlockIndexTypeSwitch table.dataBlockIndexType).1
    indexType := (env.indexTypeSwitch table.indexType).1
    partitionFilters := env.partitionFilters
    blockSize := env.getBlockSize
    metadataBlockSize := env.metadataBlockSize
    pinTopLevelIndexAndFilter := env.pinTopLevelIndexAndFilter
    indexShortening := (env.indexShorteningSwitch table.indexShortening).1
    blockSizeDeviation := env.blockSizeDeviation
    enableIndexCompression := env.enableIndexCompression }

/-- The options, with the table options they are given. -/
def configStore (table : TableOptions) (options : StoreOptions) : StoreOptions :=
  let compactionStyle := (env.compactionStyleSwitch options.compactionStyle).1
  { options with
    createIfMissing := env.createIfMissing
    maxOpenFiles := env.maxOpenFiles
    maxFileOpeningThreads := env.maxFileOpeningThreads
    bytesPerSync := env.bytesPerSync.convert .uint64
    enableThreadTracking := env.enableThreadTracking
    allowConcurrentMemtableWrite := env.allowConcurrentMemtableWrite
    statsHistoryBufferSize := env.statsHistoryBufferSize
    dumpMallocStats := env.dumpMallocStats
    avoidFlushDuringShutdown := env.avoidFlushDuringShutdown
    adviseRandomOnOpen := env.adviseRandomOnOpen
    deleteObsoleteFilesPeriodMicros := env.deleteObsoleteFilesPeriodMicros
    allowMmapReads := env.allowMmapReads
    allowMmapWrites := env.allowMmapWrites
    maxBytesForLevelMultiplier := env.sizeRatio
    writeBufferSize := env.getBufferSize
    targetFileSizeBase := env.getTargetFileSizeBase.convert .uint64
    maxBytesForLevelBase := env.getMaxBytesForLevelBase
    maxWriteBufferNumber := env.maxWriteBufferNumber
    compactionPri := (env.compactionPriSwitch options.compactionPri).1
    memtableFactory := (env.memtableFactorySwitch options.memtableFactory).1
    levelCompactionDynamicLevelBytes := env.levelCompactionDynamicLevelBytes
    compactionStyle := compactionStyle
    disableAutoCompactions := env.disableAutoCompactions
    level0FileNumCompactionTrigger :=
      if compactionStyle ≠ .universal then env.level0FileNumCompactionTrigger
      else options.level0FileNumCompactionTrigger
    numLevels := if compactionStyle ≠ .universal then env.numLevels else options.numLevels
    targetFileSizeMultiplier := env.targetFileSizeMultiplier
    maxBackgroundJobs := env.maxBackgroundJobs
    softPendingCompactionBytesLimit := env.softPendingCompactionBytesLimit.convert .uint64
    hardPendingCompactionBytesLimit := env.hardPendingCompactionBytesLimit.convert .uint64
    periodicCompactionSeconds := env.periodicCompactionSeconds
    useDirectIoForFlushAndCompaction := env.useDirectIoForFlushAndCompaction
    useDirectReads := env.useDirectReads
    tableFactory := some table
    compression := (env.compressionSwitch options.compression).1
    comparator := (env.comparatorSwitch options.comparator).1
    maxSequentialSkipInIterations := env.maxSequentialSkipInIterations
    memtablePrefixBloomSizeRatio := env.memtablePrefixBloomSizeRatio
    level0SlowdownWritesTrigger := env.level0SlowdownWritesTrigger
    level0StopWritesTrigger := env.level0StopWritesTrigger
    paranoidFileChecks := env.paranoidFileChecks
    optimizeFiltersForHits := env.optimizeFiltersForHits
    inplaceUpdateSupport := env.inplaceUpdateSupport
    inplaceUpdateNumLocks := env.inplaceUpdateNumLocks
    reportBgIoStats := env.reportBgIoStats
    arenaBlockSize := env.getBlockSize.convert .sizeT
    statisticsLevel := if env.rocksdbStats then .all else .disableAll }

def configRead (read : ReadOptions) : ReadOptions where
  verifyChecksums := env.verifyChecksums
  fillCache := env.fillCache
  ignoreRangeDeletions := env.ignoreRangeDeletions
  readTier := (env.readTierSwitch read.readTier).1

def configWrite : WriteOptions where
  lowPri := env.lowPri
  sync := env.sync
  disableWAL := env.disableWAL
  noSlowdown := env.noSlowdown
  ignoreMissingColumnFamilies := env.ignoreMissingColumnFamilies

def configFlush : FlushOptions := ⟨env.wait, env.allowWriteStall⟩

/-- The perf level, and the contexts that go with it. -/
def perfCalls : List PerfCall :=
  [.setPerfLevel (if env.perfStats then .enableTimeAndCPUTimeExceptForMutex
    else if env.iostatStats then .enableCount else .disable)]
    ++ (if env.perfStats then
        [.resetPerfContext, .clearPerLevelPerfContext, .enablePerLevelPerfContext]
      else [.disablePerLevelPerfContext])
    ++ if env.iostatStats then [.resetIOStats] else [.disableIOStats]

/-- The errors printed, in the order of the switches. -/
def configErrors (options : StoreOptions) (table : TableOptions) (read : ReadOptions) :
    List String :=
  (env.compactionPriSwitch options.compactionPri).2
    ++ (env.memtableFactorySwitch options.memtableFactory).2
    ++ (env.compactionStyleSwitch options.compactionStyle).2
    ++ (env.dataBlockIndexTypeSwitch table.dataBlockIndexType).2
    ++ (env.indexTypeSwitch table.indexType).2
    ++ (env.indexShorteningSwitch table.indexShortening).2
    ++ (env.compressionSwitch options.compression).2
    ++ (env.readTierSwitch read.readTier).2
    ++ (env.comparatorSwitch options.comparator).2

end DBEnv

/-- What `configOptions` leaves behind. -/
structure Configured where
  env : DBEnv
  options : StoreOptions
  table : TableOptions
  read : ReadOptions
  write : WriteOptions
  flush : FlushOptions
  perf : List PerfCall
  errors : List String

/-- `configOptions`; `none` where its behaviour is undefined. The write and the flush options are
overwritten whatever they were. -/
def configOptions (env : DBEnv) (options : StoreOptions) (table : TableOptions)
    (read : ReadOptions) : Option Configured := do
  let cached ← env.configBlockCache table
  let configured := env.configTable cached
  some {
    env := { env with noBlockCache := configured.noBlockCache }
    options := env.configStore configured options
    table := configured
    read := env.configRead read
    write := env.configWrite
    flush := env.configFlush
    perf := env.perfCalls
    errors := env.configErrors options table read }

/-- **The defaults pass all switches.** -/
theorem configErrors_default (options : StoreOptions) (table : TableOptions) (read : ReadOptions) :
    DBEnv.configErrors {} options table read = [] :=
  rfl

end WorkloadAwareCompaction
